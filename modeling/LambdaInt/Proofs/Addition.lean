import LambdaInt.Proofs.Calls
import LambdaInt.Proofs.Restoring
import LambdaInt.Proofs.Values

/-!
Addition in sessions. No text has a negative integer in it and no builtin makes one, so all integers
that a session comes by have the sign bit clear. On such integers no partial sum is larger than the
whole, which is why a sum that is added up from left to right is exact, fails exactly when it does
not fit, and does not depend on the order.
-/

namespace LambdaInt
open Term

namespace Builtin

/-- The result in whole numbers, where nothing overflows: the sum, or one more than it. -/
def exact (op : Builtin) (values : List Int64) : Int :=
  match op with
  | plus => (values.map Int64.toInt).sum
  | increment => 1 + (values.map Int64.toInt).sum

theorem toInt_le (n : Int64) : n.toInt ≤ 2 ^ 63 - 1 :=
  Int64.toInt_le n

theorem exists_toInt_eq {n : Int} (h : 0 ≤ n) (hle : n ≤ 2 ^ 63 - 1) : ∃ m : Int64, m.toInt = n :=
  ⟨Int64.ofInt n, Int64.toInt_ofInt_of_le (Int.le_trans (by decide) h)
    (Int.lt_of_le_of_lt hle (by decide))⟩

theorem Yields.toInt_eq_exact {op : Builtin} {values : List Int64} {value : Int64}
    (h : op.Yields values value) : value.toInt = op.exact values := by
  cases h with
  | plus _ _ sum => exact sum
  | increment succ => simp [exact, succ, Int.add_comm]

section
variable {values : List Int64} (h : ∀ n ∈ values, 0 ≤ n.toInt)
include h

/-- Partial sums grow, so all of them fit if the sum of all does. -/
theorem partials_of_nonneg (hle : (values.map Int64.toInt).sum ≤ 2 ^ 63 - 1) (first : List Int64)
    (hfirst : first <+: values) : ∃ n : Int64, n.toInt = (first.map Int64.toInt).sum := by
  obtain ⟨rest, rfl⟩ := hfirst
  obtain ⟨hfirst, hrest⟩ := List.forall_mem_append.1 h
  have hnonneg := sum_nonneg hrest
  rw [List.map_append, List.sum_append] at hle
  exact exists_toInt_eq (sum_nonneg hfirst) (by omega)

theorem yields_of_le {op : Builtin} (htakes : op.takes values.length = true)
    (hle : op.exact values ≤ 2 ^ 63 - 1) : ∃ value, op.Yields values value := by
  cases op with
  | plus =>
      obtain ⟨value, hvalue⟩ := exists_toInt_eq (sum_nonneg h) hle
      exact ⟨value, .plus (of_decide_eq_true htakes) (partials_of_nonneg h hle) hvalue⟩
  | increment =>
      obtain ⟨n, rfl⟩ := List.length_eq_one_iff.1 (beq_iff_eq.1 htakes)
      have hn : 0 ≤ n.toInt := h n List.mem_cons_self
      have hexact : Builtin.increment.exact [n] = n.toInt + 1 := by simp [exact, Int.add_comm]
      obtain ⟨value, hvalue⟩ := exists_toInt_eq (Int.le_add_one hn) (hexact ▸ hle)
      exact ⟨value, .increment hvalue⟩

end

theorem exact_perm {op : Builtin} {values values' : List Int64} (h : values'.Perm values) :
    op.exact values' = op.exact values := by
  cases op with
  | plus => exact (h.map Int64.toInt).sum_eq
  | increment => exact congrArg (1 + ·) (h.map Int64.toInt).sum_eq

theorem apply_literals {op : Builtin} {values : List Int64} (h : op.takes values.length = true) :
    op.apply (values.map lit) =
      match op.value? values with
      | some value => .ok (.lit value)
      | none => .error (.integerOverflow op) := by
  rw [apply, literals?_eq_some_iff.2 rfl]
  exact if_pos h

theorem apply_eq_overflow_iff {op : Builtin} {args : List Term} :
    op.apply args = .error (.integerOverflow op) ↔ ∃ values, args = values.map lit ∧
      op.takes values.length = true ∧ op.value? values = none := by
  constructor
  · intro h
    unfold apply at h
    split at h
    · cases h
    · rename_i values hliterals
      split at h
      · rename_i htakes
        refine ⟨values, literals?_eq_some_iff.1 hliterals, htakes, ?_⟩
        cases hvalue : op.value? values with
        | none => rfl
        | some value =>
            rw [hvalue] at h
            cases h
      · cases h
  · rintro ⟨values, rfl, htakes, hvalue⟩
    rw [apply_literals htakes, hvalue]

section
variable {op : Builtin} {values : List Int64} (h : ∀ n ∈ values, 0 ≤ n.toInt)
  (htakes : op.takes values.length = true)
include h htakes

theorem apply_of_le (hle : op.exact values ≤ 2 ^ 63 - 1) :
    ∃ r, op.apply (values.map lit) = .ok (lit r) ∧ r.toInt = op.exact values := by
  obtain ⟨r, yields⟩ := yields_of_le h htakes hle
  have hliterals : literals? (values.map lit) = some values := literals?_eq_some_iff.2 rfl
  exact ⟨r, apply_eq_ok_iff.2 ⟨values, r, hliterals, yields, rfl⟩, yields.toInt_eq_exact⟩

omit h in
theorem apply_of_lt (hlt : 2 ^ 63 - 1 < op.exact values) :
    op.apply (values.map lit) = .error (.integerOverflow op) := by
  refine apply_eq_overflow_iff.2 ⟨values, rfl, htakes, ?_⟩
  cases hvalue : op.value? values with
  | none => rfl
  | some r =>
      have hr := (yields_iff.2 ⟨htakes, hvalue⟩).toInt_eq_exact
      exact absurd (hr ▸ toInt_le r) (Int.not_le.2 hlt)

/-- The order of the arguments makes no difference, as none of them is negative. -/
theorem apply_perm {values' : List Int64} (hperm : values'.Perm values) :
    op.apply (values'.map lit) = op.apply (values.map lit) := by
  have h' : ∀ n ∈ values', 0 ≤ n.toInt := fun n hn => h n (hperm.mem_iff.1 hn)
  have htakes' : op.takes values'.length = true := hperm.length_eq ▸ htakes
  have hexact : op.exact values' = op.exact values := exact_perm hperm
  by_cases hle : op.exact values ≤ 2 ^ 63 - 1
  · obtain ⟨r, happly, hr⟩ := apply_of_le h htakes hle
    obtain ⟨r', happly', hr'⟩ := apply_of_le h' htakes' (hexact ▸ hle)
    rw [happly, happly', Int64.toInt_inj.1 (hr'.trans (hexact.trans hr.symm))]
  · have hlt : 2 ^ 63 - 1 < op.exact values := Int.not_le.1 hle
    rw [apply_of_lt htakes hlt, apply_of_lt htakes' (hexact ▸ hlt)]

omit htakes in
/-- What fits as a whole fits in each part, in whatever order it is added up. -/
theorem partial_sum {first rest : List Int64} (hperm : (first ++ rest).Perm values)
    (hfits : (values.map Int64.toInt).sum ≤ 2 ^ 63 - 1) :
    ∃ r, first.foldlM add? 0 = some r ∧ r.toInt = (first.map Int64.toInt).sum := by
  obtain ⟨hfirst, hrest⟩ := List.forall_mem_append.1 fun n hn => h n (hperm.mem_iff.1 hn)
  have hsum : (values.map Int64.toInt).sum =
      (first.map Int64.toInt).sum + (rest.map Int64.toInt).sum := by
    rw [← (hperm.map Int64.toInt).sum_eq, List.map_append, List.sum_append]
  have hnonneg := sum_nonneg hrest
  have hle : (first.map Int64.toInt).sum ≤ 2 ^ 63 - 1 := by omega
  obtain ⟨r, hr⟩ := exists_toInt_eq (sum_nonneg hfirst) hle
  refine ⟨r, foldlM_add?_eq_some_iff.2 ?_, hr⟩
  rw [Int64.toInt_zero, Int.zero_add]
  exact ⟨fun part hpart => by simpa using partials_of_nonneg hfirst hle part hpart, hr⟩

end
end Builtin

namespace Term

theorem Printable.of_mem_parts {t u : Term} (h : t.Printable) (hu : u ∈ t.parts) : u.Printable := by
  induction t with
  | var _ | lit _ | builtin _ => exact List.mem_singleton.1 hu ▸ h
  | fn p b ih =>
      obtain rfl | hu := List.mem_cons.1 hu
      · exact h
      · exact ih h.2 hu
  | app ts ih =>
      obtain rfl | ⟨t, ht, hu⟩ := mem_parts_app.1 hu
      · exact h
      · exact ih t ht ((printable_app.1 h).2 t ht) hu

/-- Every integer in a term that can be written is in the upper half of the range. -/
theorem Printable.range {t : Term} (h : t.Printable) {n : Int64} (hn : lit n ∈ t.parts) :
    0 ≤ n.toInt ∧ n.toInt ≤ 2 ^ 63 - 1 :=
  ⟨h.of_mem_parts hn, Builtin.toInt_le n⟩

theorem nonneg_of_printable (values : List Int64) (h : ∀ a ∈ values.map lit, a.Printable) :
    ∀ n ∈ values, 0 ≤ n.toInt :=
  fun n hn => h (lit n) (List.mem_map_of_mem hn)

end Term

namespace Session

theorem IsRestorable.runLine {depth : Nat} {session : Session} (h : session.IsRestorable depth)
    (line : String) : (session.runLine line).2.IsRestorable depth := by
  have hread : ∀ l ∈ [line], ∀ s, Statement.ofText l = .ok s → s.Printable :=
    fun _ _ _ hs => Statement.printable_of_ofText hs
  exact (runLines_keeps IsRestorable.evaluate h hread).1

section
variable {depth : Nat} {session : Session} (h : session.IsRestorable depth)
include h

theorem IsRestorable.printable_of_reads {op : Builtin} {args : List Term} {line : String}
    {statement : Statement} (read : Statement.ofText line = .ok statement)
    (calls : statement.term.Calls op args session.maxDepth [] (.root session.bindings)) :
    ∀ a ∈ args, a.Printable := by
  have hterm : statement.term.Printable := (Statement.printable_of_ofText read).term
  exact calls.args_keep keeps_printable ⟨hterm, h.all_printable⟩

omit h in
/-- Whatever a builtin is called with in a session could have been written. -/
theorem Calls.printable {op : Builtin} {args : List Term} {lines : List String}
    (calls : session.Calls op args lines) (h : session.IsRestorable depth) :
    ∀ a ∈ args, a.Printable := by
  induction calls with
  | here read calls => exact h.printable_of_reads read calls
  | later _ ih => exact ih (h.runLine _)

theorem IsRestorable.overflow_iff (op : Builtin) (line : String) :
    (session.runLine line).1 = .error (.failed (.integerOverflow op)) ↔
      ∃ statement values, Statement.ofText line = .ok statement ∧
        statement.term.Calls op (values.map lit) session.maxDepth [] (.root session.bindings) ∧
        op.takes values.length = true ∧ 2 ^ 63 - 1 < op.exact values := by
  have hcauses : op.Causes (.integerOverflow op) := .inr rfl
  cases hread : Statement.ofText line with
  | error e =>
      rw [runLine_of_malformed session hread]
      simp
  | ok statement =>
      have hline : (session.runLine line).1 = .error (.failed (.integerOverflow op)) ↔
          statement.term.reduce session.maxDepth [] (.root session.bindings) =
            .error (.integerOverflow op) := by
        rw [runLine_of_ofText session hread, fst_evaluate]
        cases statement.term.reduce session.maxDepth [] (.root session.bindings) <;>
          simp [Except.mapError]
      rw [hline, reduce_eq_error_iff_calls hcauses]
      constructor
      · rintro ⟨args, calls, happly⟩
        obtain ⟨values, rfl, htakes, hvalue⟩ := Builtin.apply_eq_overflow_iff.1 happly
        have hnonneg := nonneg_of_printable values (h.printable_of_reads hread calls)
        refine ⟨statement, values, rfl, calls, htakes, Int.not_le.1 fun hle => ?_⟩
        obtain ⟨r, yields⟩ := Builtin.yields_of_le hnonneg htakes hle
        rw [(Builtin.yields_iff.1 yields).2] at hvalue
        cases hvalue
      · rintro ⟨_, values, heq, calls, htakes, hlt⟩
        cases heq
        have hnonneg := nonneg_of_printable values (h.printable_of_reads hread calls)
        exact ⟨_, calls, Builtin.apply_of_lt htakes hlt⟩

end
end Session

/-- All integers in the answers, definitions and calls of a session are in the upper half of the
range. A sum of two or more is therefore exact if it fits and an overflow if it does not, in every
order of the arguments, and so is a successor; and a line fails by overflow exactly when it calls
for a result that does not fit. -/
theorem addition_exact (depth : Nat) (lines : List String) :
    (∀ v, .ok v ∈ ((Session.start depth).runLines lines).1 →
      ∀ n, lit n ∈ v.parts → 0 ≤ n.toInt ∧ n.toInt ≤ 2 ^ 63 - 1) ∧
    (∀ x v, ((Session.start depth).runLines lines).2.bindings.find? x = some v →
      ∀ n, lit n ∈ v.parts → 0 ≤ n.toInt ∧ n.toInt ≤ 2 ^ 63 - 1) ∧
    (∀ op args, (Session.start depth).Calls op args lines →
      ∀ a ∈ args, ∀ n, lit n ∈ a.parts → 0 ≤ n.toInt ∧ n.toInt ≤ 2 ^ 63 - 1) ∧
    (∀ values : List Int64, (Session.start depth).Calls .plus (values.map lit) lines →
      2 ≤ values.length →
        ((values.map Int64.toInt).sum ≤ 2 ^ 63 - 1 → ∃ r,
          Builtin.plus.apply (values.map lit) = .ok (lit r) ∧
          r.toInt = (values.map Int64.toInt).sum) ∧
        (2 ^ 63 - 1 < (values.map Int64.toInt).sum →
          Builtin.plus.apply (values.map lit) = .error (.integerOverflow .plus)) ∧
        ∀ values' : List Int64, values'.Perm values →
          Builtin.plus.apply (values'.map lit) = Builtin.plus.apply (values.map lit) ∧
          ((values.map Int64.toInt).sum ≤ 2 ^ 63 - 1 → ∀ first rest, values' = first ++ rest →
            ∃ r, first.foldlM Builtin.add? 0 = some r ∧ r.toInt = (first.map Int64.toInt).sum)) ∧
    (∀ n, (Session.start depth).Calls .increment [lit n] lines →
      (n.toInt < 2 ^ 63 - 1 → ∃ r,
        Builtin.increment.apply [lit n] = .ok (lit r) ∧ r.toInt = n.toInt + 1) ∧
      (n.toInt = 2 ^ 63 - 1 →
        Builtin.increment.apply [lit n] = .error (.integerOverflow .increment))) ∧
    ∀ op line, (((Session.start depth).runLines lines).2.runLine line).1 =
        .error (.failed (.integerOverflow op)) ↔
      ∃ statement values, Statement.ofText line = .ok statement ∧
        statement.term.Calls op (values.map lit) depth []
          (.root ((Session.start depth).runLines lines).2.bindings) ∧
        op.takes values.length = true ∧ 2 ^ 63 - 1 < op.exact values := by
  obtain ⟨hsession, hvalues⟩ := Session.isRestorable_runLines depth lines
  have hcalls {op : Builtin} {args : List Term}
      (calls : (Session.start depth).Calls op args lines) : ∀ a ∈ args, a.Printable :=
    calls.printable (Session.isRestorable_start depth)
  refine ⟨?_, ?_, ?_, ?_, ?_, ?_⟩
  · intro v hv n hn
    exact (hvalues v hv).printable.range hn
  · intro x v hfind n hn
    exact (hsession.2 x v hfind).2.printable.range hn
  · intro op args calls a ha n hn
    exact (hcalls calls a ha).range hn
  · intro values calls hlength
    have hnonneg := nonneg_of_printable values (hcalls calls)
    have htakes : Builtin.plus.takes values.length = true := decide_eq_true hlength
    refine ⟨Builtin.apply_of_le hnonneg htakes, Builtin.apply_of_lt htakes, ?_⟩
    intro values' hperm
    refine ⟨Builtin.apply_perm hnonneg htakes hperm, ?_⟩
    rintro hfits first rest rfl
    exact Builtin.partial_sum hnonneg hperm hfits
  · intro n calls
    have hnonneg := nonneg_of_printable [n] (hcalls calls)
    have hexact : Builtin.increment.exact [n] = n.toInt + 1 := by
      simp [Builtin.exact, Int.add_comm]
    have htakes : Builtin.increment.takes [n].length = true := rfl
    constructor
    · intro hlt
      have hle : Builtin.increment.exact [n] ≤ 2 ^ 63 - 1 := by omega
      obtain ⟨r, happly, hr⟩ := Builtin.apply_of_le hnonneg htakes hle
      exact ⟨r, happly, hr.trans hexact⟩
    · intro hmax
      have hlt : 2 ^ 63 - 1 < Builtin.increment.exact [n] := by omega
      exact Builtin.apply_of_lt htakes hlt
  · intro op line
    have hoverflow := hsession.overflow_iff op line
    rwa [hsession.1] at hoverflow

def largestLines : List String :=
  ["let m = 9223372036854775806", "1+ (+ 1 m 0)"]

def largestFrame : Frame :=
  Frame.empty.set "m" (lit 9223372036854775806)

/-- The sum of three integers is the largest there is, in both orders, and has no successor. -/
theorem addition_exact_largest :
    (.ok (lit 9223372036854775806) ∈ ((Session.start 9).runLines largestLines).1 ∧
      (9223372036854775806 : Int64).toInt ≤ 2 ^ 63 - 1) ∧
    ((Session.start 9).Calls .plus ([1, 9223372036854775806, 0].map lit) largestLines ∧
      (∃ r, Builtin.plus.apply ([1, 9223372036854775806, 0].map lit) = .ok (lit r) ∧
        r.toInt = 2 ^ 63 - 1) ∧
      Builtin.plus.apply ([9223372036854775806, 0, 1].map lit) =
        Builtin.plus.apply ([1, 9223372036854775806, 0].map lit)) ∧
    ((Session.start 9).Calls .increment [lit 9223372036854775807] largestLines ∧
      Builtin.increment.apply [lit 9223372036854775807] =
        .error (.integerOverflow .increment)) ∧
    (((Session.start 9).runLines ["let m = 9223372036854775806"]).2.runLine "1+ (+ 1 m 0)").1 =
        .error (.failed (.integerOverflow .increment)) ∧
      ∃ statement values, Statement.ofText "1+ (+ 1 m 0)" = .ok statement ∧
        statement.term.Calls .increment (values.map lit) 9 []
          (.root ((Session.start 9).runLines ["let m = 9223372036854775806"]).2.bindings) ∧
        Builtin.increment.takes values.length = true ∧
          2 ^ 63 - 1 < Builtin.increment.exact values := by
  have hanswers : ((Session.start 9).runLines largestLines).1 =
      [.ok (lit 9223372036854775806), .error (.failed (.integerOverflow .increment))] := by cbv
  have hread : Statement.ofText "1+ (+ 1 m 0)" = .ok (.evaluate (app [builtin .increment,
      app [builtin .plus, lit 1, var "m", lit 0]])) := by cbv
  have hsession : ((Session.start 9).runLine "let m = 9223372036854775806").2 =
      ⟨largestFrame, 9⟩ := by cbv
  have hfunction : [builtin .increment].mapM (reduce 8 [] (.root largestFrame)) =
      .ok [builtin .increment] := rfl
  have hsum : CallsApplied .plus ([1, 9223372036854775806, 0].map lit) 7 [] (.root largestFrame)
      (builtin .plus) ([1, 9223372036854775806, 0].map lit) :=
    .here (by simp) (by simp [freeVars])
  have hsuccessor : CallsApplied .increment [lit 9223372036854775807] 8 [] (.root largestFrame)
      (builtin .increment) [lit 9223372036854775807] := .here (by simp) (by simp [freeVars])
  have hplus :
      (Session.start 9).Calls .plus ([1, 9223372036854775806, 0].map lit) largestLines := by
    refine .later ?_
    rw [hsession]
    exact .here hread (.member hfunction (.applied rfl (by cbv) hsum))
  have hincrement : (Session.start 9).Calls .increment [lit 9223372036854775807] largestLines := by
    refine .later ?_
    rw [hsession]
    exact .here hread (.applied rfl (by cbv) hsuccessor)
  have hanswer : .ok (lit 9223372036854775806) ∈ ((Session.start 9).runLines largestLines).1 := by
    rw [hanswers]
    exact .head _
  have hline : (((Session.start 9).runLines ["let m = 9223372036854775806"]).2.runLine
      "1+ (+ 1 m 0)").1 = .error (.failed (.integerOverflow .increment)) := by cbv
  obtain ⟨hvalues, _, _, hsums, hsuccessors, _⟩ := addition_exact 9 largestLines
  obtain ⟨hfits, _, hperm⟩ := hsums _ hplus (by decide)
  obtain ⟨r, happly, hr⟩ := hfits (by decide)
  refine ⟨⟨hanswer, (hvalues _ hanswer _ List.mem_cons_self).2⟩,
    ⟨hplus, ⟨r, happly, hr.trans (by decide)⟩, (hperm _ (by decide)).1⟩,
    ⟨hincrement, (hsuccessors _ hincrement).2 (by decide)⟩, hline, ?_⟩
  exact ((addition_exact 9 ["let m = 9223372036854775806"]).2.2.2.2.2 .increment _).1 hline

end LambdaInt
