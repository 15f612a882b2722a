import LambdaInt.Proofs.Addition
import LambdaInt.Proofs.BigStep
import LambdaInt.Proofs.Deepening

/-!
Arithmetic on Church numerals. A numeral given a head and an argument goes through the values that
the head makes of the argument, one by one: calls that wait, below a function, or integers when the
head is a builtin and the argument an integer. All of the arithmetic comes from this, by induction
on the number.
-/

namespace LambdaInt

namespace Term

/-- The function `n` times on the argument. -/
def iterate (f : Term) : Nat → Term → Term
  | 0, a => a
  | n + 1, a => app [f, iterate f n a]

/-- The Church numeral with the given names for its parameters. -/
def numeralBy (p q : String) (n : Nat) : Term :=
  fn p (fn q (iterate (var p) n (var q)))

/-- The Church numeral `λf.λx.f (f (… x))`. -/
def numeral (n : Nat) : Term :=
  numeralBy "f" "x" n

theorem iterate_iterate (f : Term) (m n : Nat) (a : Term) :
    iterate f m (iterate f n a) = iterate f (m + n) a := by
  induction m with
  | zero => rw [Nat.zero_add, iterate]
  | succ m ih => rw [Nat.add_right_comm, iterate, iterate, ih]

theorem numeral_add (m n : Nat) :
    numeral (m + n) = fn "f" (fn "x" (iterate (var "f") m (iterate (var "f") n (var "x")))) := by
  rw [numeral, numeralBy, iterate_iterate]

theorem rename_iterate (old new : String) (f : Term) (n : Nat) (a : Term) :
    (iterate f n a).rename old new = iterate (f.rename old new) n (a.rename old new) := by
  induction n with
  | zero => rfl
  | succ n ih =>
      rw [iterate, iterate, rename, renameAll_eq_map, List.map_cons, List.map_cons, ih]
      rfl

theorem mem_freeVars_iterate {f a : Term} {x : String} (h : x ∈ a.freeVars) (n : Nat) :
    x ∈ (iterate f n a).freeVars := by
  induction n with
  | zero => exact h
  | succ n ih => exact mem_freeVars_app.2 ⟨_, List.mem_cons_of_mem f List.mem_cons_self, ih⟩

theorem printable_iterate {f a : Term} (hf : f.Printable) (ha : a.Printable) (n : Nat) :
    (iterate f n a).Printable := by
  induction n with
  | zero => exact ha
  | succ n ih =>
      have hmembers := List.forall_mem_cons.2 ⟨hf, List.forall_mem_singleton.2 ih⟩
      exact printable_app.2 ⟨Nat.le_refl 2, hmembers⟩

/-- A head that waits for as long as its argument mentions a name. -/
structure Inert (used : List String) (g : Term) : Prop where
  inScope : ∀ x ∈ g.freeVars, x ∈ used
  waits : ∀ a, a.freeVars ≠ [] → Waits g [a]

theorem inert_var {used : List String} {f : String} (h : f ∈ used) : Inert used (var f) where
  inScope := (tidy_var.2 h).inScope
  waits a _ := List.cons_ne_nil a []

theorem inert_builtin (used : List String) (op : Builtin) : Inert used (builtin op) where
  inScope := (tidy_builtin used op).inScope
  waits a ha := ⟨a, List.mem_cons_self, ha⟩

theorem Inert.cons {used : List String} {g : Term} (h : Inert used g) (q : String) :
    Inert (q :: used) g where
  inScope x hx := List.mem_cons_of_mem q (h.inScope x hx)
  waits := h.waits

theorem Inert.evaluates {used : List String} {g : Term} (h : Inert used g) (scope : Scope) :
    Evaluates used scope g g := by
  have hwaits : Waits g [var ""] := h.waits _ (List.cons_ne_nil "" [])
  exact ⟨g.height, hwaits.reduce_self h.inScope (Nat.le_refl _) scope⟩

section
variable {used : List String} {scope : Scope}

/-- An iteration has the values, one after the other, that its function takes to each other. -/
theorem Evaluates.iterate {f g a : Term} {v : Nat → Term} {n : Nat}
    (hf : Evaluates used scope f g) (ha : Evaluates used scope a (v 0))
    (hstep : ∀ i < n, Applied used scope g [v i] (v (i + 1))) :
    Evaluates used scope (iterate f n a) (v n) := by
  induction n with
  | zero => exact ha
  | succ n ih =>
      have hn := ih fun i hi => hstep i (Nat.lt_succ_of_lt hi)
      exact .app hf (.cons hn .nil) (hstep n (Nat.lt_succ_self n))

/-- Below a function an iteration waits, whether its function is a variable or a builtin. -/
theorem Inert.evaluates_iterate {f g a b : Term} (hg : Inert used g)
    (hf : Evaluates used scope f g) (ha : Evaluates used scope a b) (hb : b.freeVars ≠ [])
    (n : Nat) : Evaluates used scope (iterate f n a) (iterate g n b) := by
  obtain ⟨x, hx⟩ := List.exists_mem_of_ne_nil _ hb
  refine Evaluates.iterate (v := fun i => iterate g i b) hf ha fun i _ => ?_
  exact applied_of_waits (hg.waits _ (List.ne_nil_of_mem (mem_freeVars_iterate hx i)))

theorem renameApart_numeralBy {p q p' : String} {n : Nat} {c : Term} (hne : p ≠ q)
    (h : renameApart used p (fn q (iterate (var p) n (var q))) = (p', c)) :
    p' ≠ q ∧ c = fn q (iterate (var p') n (var q)) := by
  obtain ⟨rfl, rfl⟩ | ⟨hp', rfl⟩ := renameApart_cases h
  · exact ⟨hne, rfl⟩
  · have hq : p' ≠ q := fun heq => hp' (heq ▸ List.mem_cons_self)
    refine ⟨hq, ?_⟩
    rw [rename, if_neg hne.symm, rename_iterate, rename, rename, if_pos rfl, if_neg hne.symm]

theorem renameApart_iterate {p q q' : String} {n : Nat} {c : Term} (hne : p ≠ q)
    (h : renameApart used q (iterate (var p) n (var q)) = (q', c)) :
    c = iterate (var p) n (var q') := by
  obtain ⟨rfl, rfl⟩ | ⟨_, rfl⟩ := renameApart_cases h
  · rfl
  · rw [rename_iterate, rename, rename, if_pos rfl, if_neg hne]

/-- A numeral is its own value up to its parameters, which are renamed where they are used. -/
theorem exists_evaluates_numeralBy {p q : String} (hne : p ≠ q) (n : Nat) (used : List String)
    (scope : Scope) : ∃ p' q', p' ∉ used ∧ q' ∉ p' :: used ∧
      Evaluates used scope (numeralBy p q n) (numeralBy p' q' n) := by
  cases hp : renameApart used p (fn q (iterate (var p) n (var q))) with
  | mk p' c =>
      obtain ⟨hne', rfl⟩ := renameApart_numeralBy hne hp
      cases hq : renameApart (p' :: used) q (iterate (var p') n (var q)) with
      | mk q' c =>
          obtain rfl := renameApart_iterate hne' hq
          refine ⟨p', q', not_mem_of_renameApart hp, not_mem_of_renameApart hq, ?_⟩
          have hp' : p' ∈ q' :: p' :: used := List.mem_cons_of_mem q' List.mem_cons_self
          have hq' : q' ∈ q' :: p' :: used := List.mem_cons_self
          exact .fn hp (.fn hq ((inert_var hp').evaluates_iterate (evaluates_var_of_mem hp')
            (evaluates_var_of_mem hq') (List.cons_ne_nil _ _) n))

/-- A numeral takes the head and the argument to the last of the values between them. -/
theorem applied_numeralBy {p q : String} {g : Term} {v : Nat → Term} {n : Nat} (hp : p ∉ used)
    (hq : q ∉ p :: used) (hg : Inert used g) (hv : ∀ scope, Evaluates used scope (v 0) (v 0))
    (hstep : ∀ scope, ∀ i < n, Applied used scope g [v i] (v (i + 1))) :
    Applied used scope (numeralBy p q n) [g, v 0] (v n) := by
  obtain ⟨hqp, hqused⟩ := not_or.1 (mt List.mem_cons.2 hq)
  have hwaiting : Evaluates used (scope.child.set p g) (fn q (iterate (var p) n (var q)))
      (fn q (iterate g n (var q))) := by
    apply Evaluates.fn_of_not_mem hqused
    have hp' : p ∉ q :: used := List.not_mem_cons_of_ne_of_not_mem (Ne.symm hqp) hp
    have hfind : (((scope.child.set p g).child).set q (var q)).find? p = some g := by
      simp [Ne.symm hqp]
    exact (hg.cons q).evaluates_iterate (.var hp' hfind ((hg.cons q).evaluates _))
      (evaluates_var_of_mem List.mem_cons_self) (List.cons_ne_nil _ _) n
  -- With the argument in place of the second parameter, what has waited goes on.
  have hlast : Evaluates used (scope.child.set q (v 0)) (iterate g n (var q)) (v n) := by
    have hfind : (scope.child.set q (v 0)).find? q = some (v 0) := by simp
    exact .iterate (hg.evaluates _) (.var hqused hfind (hv _)) (hstep _)
  exact .beta_of_not_mem hp hwaiting (.beta_of_not_mem hqused hlast (applied_nil _))

/-- What a name of a numeral makes of a head and an argument. -/
theorem evaluates_numeral_app {y : String} {f g a : Term} {v : Nat → Term} {n : Nat}
    (hy : y ∉ used) (hfind : scope.find? y = some (numeral n)) (hg : Inert used g)
    (hf : Evaluates used scope f g) (ha : Evaluates used scope a (v 0))
    (hv : ∀ scope, Evaluates used scope (v 0) (v 0))
    (hstep : ∀ scope, ∀ i < n, Applied used scope g [v i] (v (i + 1))) :
    Evaluates used scope (app [var y, f, a]) (v n) := by
  obtain ⟨p, q, hp, hq, hnumeral⟩ :=
    exists_evaluates_numeralBy (p := "f") (q := "x") (by decide) n used scope
  exact .app (.var hy hfind hnumeral) (.cons hf (.cons ha .nil))
    (applied_numeralBy hp hq hg hv hstep)

/-- A numeral of a variable puts that variable in front of the argument. -/
theorem evaluates_numeral_var {y f : String} {a b : Term} {n : Nat} (hy : y ∉ used)
    (hfind : scope.find? y = some (numeral n)) (hf : f ∈ used) (ha : Evaluates used scope a b)
    (hb : b.Normal) : Evaluates used scope (app [var y, var f, a]) (iterate (var f) n b) := by
  refine evaluates_numeral_app (v := fun i => iterate (var f) i b) hy hfind (inert_var hf)
    (evaluates_var_of_mem hf) ha (hb.evaluates ha.tidy) fun _ i _ => ?_
  exact applied_of_waits (List.cons_ne_nil _ _)

end

/-- One more than an integer that is not negative, as long as it fits. -/
theorem applied_increment {used : List String} {scope : Scope} {n : Nat} (h : n + 1 < 2 ^ 63) :
    Applied used scope (builtin .increment) [lit (Int64.ofNat n)] (lit (Int64.ofNat (n + 1))) := by
  have hn : (Int64.ofNat n).toInt = n := Int64.toInt_ofNat_of_lt (Nat.lt_of_succ_lt h)
  have hnext : (Int64.ofNat (n + 1)).toInt = n + 1 := Int64.toInt_ofNat_of_lt h
  have hexact : Builtin.increment.exact [Int64.ofNat n] = n + 1 := by
    simp [Builtin.exact, hn, Int.add_comm]
  have hnonneg : ∀ k ∈ [Int64.ofNat n], 0 ≤ k.toInt := List.forall_mem_singleton.2 (by omega)
  have htakes : Builtin.increment.takes [Int64.ofNat n].length = true := rfl
  obtain ⟨r, happly, hr⟩ := Builtin.apply_of_le hnonneg htakes (by omega)
  obtain rfl : r = Int64.ofNat (n + 1) := Int64.toInt_inj.1 (by omega)
  exact applied_builtin (List.cons_ne_nil _ _) (List.forall_mem_singleton.2 rfl) happly

/-- A numeral of the successor counts up from zero, to the number it stands for. -/
theorem evaluates_numeral_increment {used : List String} {scope : Scope} {y : String} {n : Nat}
    (hn : n < 2 ^ 63) (hy : y ∉ used) (hfind : scope.find? y = some (numeral n)) :
    Evaluates used scope (app [var y, builtin .increment, lit 0]) (lit (Int64.ofNat n)) := by
  refine evaluates_numeral_app (v := fun i => lit (Int64.ofNat i)) hy hfind
    (inert_builtin used .increment) (evaluates_builtin _) (evaluates_lit 0)
    (fun scope => evaluates_lit 0) fun _ i hi => ?_
  exact applied_increment (Nat.lt_of_le_of_lt hi hn)

end Term

namespace Church
open Term

def zero : Term :=
  fn "f" (fn "x" (var "x"))

def succ : Term :=
  fn "n" (fn "f" (fn "x" (app [var "f", app [var "n", var "f", var "x"]])))

def add : Term :=
  fn "m" (fn "n" (fn "f" (fn "x" (app [var "m", var "f", app [var "n", var "f", var "x"]]))))

def toInt : Term :=
  fn "n" (app [var "n", builtin .increment, lit 0])

/-- The lines that define arithmetic. -/
def definitions : List String :=
  ["let zero = λf.λx.x", "let succ = λn.λf.λx.f (n f x)", "let add = λm.λn.λf.λx.m f (n f x)",
    "let toInt = λn.n 1+ 0"]

/-- A number, written as the successor applied that many times to zero. -/
def written (n : Nat) : Term :=
  iterate (var "succ") n (var "zero")

/-- The integer that the sum of two written numbers is made into. -/
def writtenSum (m n : Nat) : Term :=
  app [var "toInt", app [var "add", written m, written n]]

example : (written 3).render = "succ (succ (succ zero))" := by cbv
example : (writtenSum 1 0).render = "toInt (add (succ zero) zero)" := by cbv

/-- Each name that arithmetic uses is read as itself, so it can be written. -/
theorem printable_name : (var "zero").Printable ∧ (var "succ").Printable ∧ (var "add").Printable ∧
    (var "toInt").Printable := by
  have hzero : Statement.ofText "zero" = .ok (.evaluate (var "zero")) := by cbv
  have hsucc : Statement.ofText "succ" = .ok (.evaluate (var "succ")) := by cbv
  have hadd : Statement.ofText "add" = .ok (.evaluate (var "add")) := by cbv
  have htoInt : Statement.ofText "toInt" = .ok (.evaluate (var "toInt")) := by cbv
  exact ⟨Statement.printable_of_ofText hzero, Statement.printable_of_ofText hsucc,
    Statement.printable_of_ofText hadd, Statement.printable_of_ofText htoInt⟩

theorem printable_written (n : Nat) : (written n).Printable := by
  obtain ⟨hzero, hsucc, -, -⟩ := printable_name
  exact printable_iterate hsucc hzero n

theorem printable_writtenSum (m n : Nat) : (writtenSum m n).Printable := by
  obtain ⟨-, -, hadd, htoInt⟩ := printable_name
  have hargs := List.forall_mem_cons.2
    ⟨printable_written m, List.forall_mem_singleton.2 (printable_written n)⟩
  have hsum : (app [var "add", written m, written n]).Printable :=
    printable_app.2 ⟨Nat.le_succ 2, List.forall_mem_cons.2 ⟨hadd, hargs⟩⟩
  exact printable_app.2
    ⟨Nat.le_refl 2, List.forall_mem_cons.2 ⟨htoInt, List.forall_mem_singleton.2 hsum⟩⟩

section
variable {scope : Scope}

theorem applied_succ (n : Nat) : Applied [] scope succ [numeral n] (numeral (n + 1)) := by
  have hcount : Evaluates ["x", "f"] (((scope.child.set "n" (numeral n)).child.set "f"
      (var "f")).child.set "x" (var "x")) (app [var "n", var "f", var "x"])
      (iterate (var "f") n (var "x")) :=
    evaluates_numeral_var (by decide) (by simp) (by decide) (evaluates_var_of_mem (by decide))
      trivial
  refine .beta_of_not_mem (by decide) ?_ (applied_nil _)
  refine .fn_of_not_mem (by decide) (.fn_of_not_mem (by decide) ?_)
  exact .app (evaluates_var_of_mem (by decide)) (.cons hcount .nil)
    (applied_of_waits (List.cons_ne_nil _ _))

/-- The first numeral is used up while the second is a name, below three functions. What it leaves
behind is then iterated further by the second. -/
theorem applied_add (m n : Nat) :
    Applied [] scope add [numeral m, numeral n] (numeral (m + n)) := by
  have hfirst : Evaluates [] (scope.child.set "m" (numeral m))
      (fn "n" (fn "f" (fn "x" (app [var "m", var "f", app [var "n", var "f", var "x"]]))))
      (fn "n" (fn "f" (fn "x"
        (iterate (var "f") m (app [var "n", var "f", var "x"]))))) := by
    refine .fn_of_not_mem (by decide) (.fn_of_not_mem (by decide) (.fn_of_not_mem (by decide) ?_))
    refine evaluates_numeral_var (by decide) (by simp) (by decide) ?_ ?_
    -- The name of the second numeral is a parameter here, so its call waits and is a value.
    · exact .app (evaluates_var_of_mem (by decide)) (.cons (evaluates_var_of_mem (by decide))
        (.cons (evaluates_var_of_mem (by decide)) .nil)) (applied_of_waits (List.cons_ne_nil _ _))
    · exact normal_app_cons.2 ⟨List.cons_ne_nil _ _, by simp [Term.Normal]⟩
  have hsecond : Evaluates [] (scope.child.set "n" (numeral n))
      (fn "f" (fn "x" (iterate (var "f") m (app [var "n", var "f", var "x"]))))
      (numeral (m + n)) := by
    rw [numeral_add]
    refine .fn_of_not_mem (by decide) (.fn_of_not_mem (by decide) ?_)
    refine Inert.evaluates_iterate (inert_var (by decide)) (evaluates_var_of_mem (by decide))
      ?_ ?_ m
    · exact evaluates_numeral_var (by decide) (by simp) (by decide)
        (evaluates_var_of_mem (by decide)) trivial
    · exact List.ne_nil_of_mem (mem_freeVars_iterate (x := "x") List.mem_cons_self n)
  exact .beta_of_not_mem (by decide) hfirst (.beta_of_not_mem (by decide) hsecond (applied_nil _))

theorem applied_toInt {n : Nat} (hn : n < 2 ^ 63) :
    Applied [] scope toInt [numeral n] (lit (Int64.ofNat n)) := by
  refine .beta_of_not_mem (by decide) ?_ (applied_nil _)
  exact evaluates_numeral_increment hn (by decide) (by simp)

end

/-- What the definitions bind. -/
def library : Frame :=
  (((Frame.empty.set "zero" zero).set "succ" succ).set "add" add).set "toInt" toInt

theorem runLines_definitions {depth : Nat} (h : 9 ≤ depth) :
    (Session.start depth).runLines definitions =
      ([.ok zero, .ok succ, .ok add, .ok toInt], ⟨library, depth⟩) := by
  have hrun : (Session.start 9).runLines definitions =
      ([.ok zero, .ok succ, .ok add, .ok toInt], ⟨library, 9⟩) := by cbv
  have hwithin : .error (.failed .depthExceeded) ∉
      ((Session.start 9).runLines definitions).1 := by
    rw [hrun]
    simp
  have hmax : (Session.start 9).maxDepth ≤ depth := h
  have hdeep := Session.runLines_withDepth hmax hwithin
  rw [hrun, Session.start_withDepth] at hdeep
  exact hdeep

/-- The definitions are values, so their names stand for them. -/
theorem evaluates_name {x : String} {v : Term} (h : library.find? x = some v) :
    Evaluates [] (.root library) (var x) v := by
  have hvalues := (Session.isRestorable_runLines 9 definitions).1.2 x v
  rw [runLines_definitions (Nat.le_refl 9)] at hvalues
  have hfind : (Scope.root library).find? x = some v := (Scope.find?_root library x).trans h
  exact .var List.not_mem_nil hfind ⟨9, (hvalues h).2.reduce (Nat.le_refl 9) _⟩

theorem evaluates_written (n : Nat) : Evaluates [] (.root library) (written n) (numeral n) := by
  have hsucc : library.find? "succ" = some succ := by simp [library]
  have hzero : library.find? "zero" = some (numeral 0) := by
    simp [library, zero, numeral, numeralBy, iterate]
  exact .iterate (evaluates_name hsucc) (evaluates_name hzero) fun i _ => applied_succ i

theorem evaluates_writtenSum {m n : Nat} (h : m + n < 2 ^ 63) :
    Evaluates [] (.root library) (writtenSum m n) (lit (Int64.ofNat (m + n))) := by
  have hadd : library.find? "add" = some add := by simp [library]
  have htoInt : library.find? "toInt" = some toInt := by simp [library]
  have hsum : Evaluates [] (.root library) (app [var "add", written m, written n])
      (numeral (m + n)) :=
    .app (evaluates_name hadd) (.cons (evaluates_written m) (.cons (evaluates_written n) .nil))
      (applied_add m n)
  exact .app (evaluates_name htoInt) (.cons hsum .nil) (applied_toInt h)

theorem fst_runLine_render {session : Session} {t v : Term} (ht : t.Printable)
    (h : t.reduce session.maxDepth [] (.root session.bindings) = .ok v) :
    (session.runLine t.render).1 = .ok v := by
  have hread : Statement.ofText t.render = .ok (.evaluate t) :=
    Statement.ofText_eq_of_printable (s := .evaluate t) ht
  rw [Session.runLine_of_ofText session hread, Session.fst_evaluate, Statement.term, h]
  rfl

/-- Arithmetic on Church numerals is right for all numbers, given enough depth: what is written with
`succ` and `zero` is answered with its numeral, name for name, and a sum with its integer. -/
theorem church_arithmetic (m n : Nat) (h : m + n ≤ 2 ^ 63 - 1) :
    ∃ depth, ∀ maxDepth, depth ≤ maxDepth →
      (((Session.start maxDepth).runLines definitions).2.runLine (written m).render).1 =
        .ok (numeral m) ∧
      ∃ r, (((Session.start maxDepth).runLines definitions).2.runLine
          (writtenSum m n).render).1 = .ok (lit r) ∧
        r.toInt = m + n := by
  have hfits : m + n < 2 ^ 63 := by omega
  obtain ⟨i, hnumeral⟩ := (evaluates_written m).eventually
  obtain ⟨j, hsum⟩ := (evaluates_writtenSum hfits).eventually
  refine ⟨max 9 (max i j), fun maxDepth hdepth => ?_⟩
  rw [runLines_definitions (by omega)]
  refine ⟨fst_runLine_render (printable_written m) (hnumeral maxDepth (by omega)), ?_⟩
  refine ⟨Int64.ofNat (m + n), ?_, Int64.toInt_ofNat_of_lt hfits⟩
  exact fst_runLine_render (printable_writtenSum m n) (hsum maxDepth (by omega))

/-- The answers for two and three, whose lines are written out. -/
theorem church_arithmetic_two_three :
    2 + 3 ≤ 2 ^ 63 - 1 ∧ ∃ depth, ∀ maxDepth, depth ≤ maxDepth →
      (((Session.start maxDepth).runLines definitions).2.runLine "succ (succ zero)").1 =
        .ok (fn "f" (fn "x" (app [var "f", app [var "f", var "x"]]))) ∧
      ∃ r, (((Session.start maxDepth).runLines definitions).2.runLine
          "toInt (add (succ (succ zero)) (succ (succ (succ zero))))").1 = .ok (lit r) ∧
        r.toInt = 5 := by
  have hwritten : (written 2).render = "succ (succ zero)" := by cbv
  have hsum : (writtenSum 2 3).render =
      "toInt (add (succ (succ zero)) (succ (succ (succ zero))))" := by cbv
  have h := church_arithmetic 2 3 (by decide)
  rw [hwritten, hsum] at h
  exact ⟨by decide, h⟩

end Church
end LambdaInt
