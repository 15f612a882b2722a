import LambdaInt.Proofs.Evaluation
import LambdaInt.Proofs.Confluence
import LambdaInt.Proofs.Currying
import LambdaInt.Proofs.Resolution

/-!
Normal forms are unique, builtins included. Reduction of nameless terms is not confluent: a call
that waits takes further arguments in, and then it is a call with more arguments. But a normal
form reads a curried term without steps, and no other normal form reads the same one.
-/

namespace LambdaInt

namespace Nameless
open Term (exists_mem_of_forall₂)

/-- The head can do nothing with the arguments: it is a variable, or a builtin of which an argument
is no literal. -/
def Waits : Nameless → List Nameless → Prop
  | bound _, args | free _, args => args ≠ []
  | builtin _, args => ∃ arg ∈ args, ∀ n, arg ≠ lit n
  | _, _ => False

mutual

def Normal : Nameless → Prop
  | bound _ | free _ | lit _ | builtin _ => True
  | fn b => Normal b
  | app [] => False
  | app (head :: args) => Waits head args ∧ NormalAll args

def NormalAll : List Nameless → Prop
  | [] => True
  | t :: ts => Normal t ∧ NormalAll ts

end

theorem normalAll_iff {ts : List Nameless} : NormalAll ts ↔ ∀ t ∈ ts, t.Normal := by
  induction ts with
  | nil => simp [NormalAll]
  | cons t ts ih => simp [NormalAll, ih]

theorem normal_app_cons {head : Nameless} {args : List Nameless} :
    (app (head :: args)).Normal ↔ Waits head args ∧ ∀ t ∈ args, t.Normal := by
  simp [Normal, normalAll_iff]

theorem Waits.ne_nil {head : Nameless} {args : List Nameless} (h : Waits head args) :
    args ≠ [] := by
  cases head with
  | bound _ | free _ => exact h
  | builtin _ =>
      obtain ⟨arg, harg, _⟩ := h
      exact List.ne_nil_of_mem harg
  | _ => exact h.elim

theorem Waits.normal {head : Nameless} {args : List Nameless} (h : Waits head args) :
    head.Normal := by
  cases head with
  | bound _ | free _ | builtin _ => trivial
  | _ => exact h.elim

theorem Waits.isLeaf {head : Nameless} {args : List Nameless} (h : Waits head args)
    {f : Curried} (reads : Reads head f) : f.IsLeaf := by
  cases reads with
  | bound _ | free _ | builtin _ => trivial
  | _ => exact h.elim

theorem not_waits_literals (op : Builtin) (values : List Int64) :
    ¬ Waits (builtin op) (values.map lit) := by
  intro h
  obtain ⟨arg, harg, hne⟩ := h
  obtain ⟨n, _, rfl⟩ := List.mem_map.1 harg
  exact hne n rfl

/-- The readings of a term whose spine has no arguments. -/
inductive Plain : Nameless → Curried → Prop
  | bound (i : Nat) : Plain (bound i) (.bound i)
  | free (x : String) : Plain (free x) (.atom (.free x))
  | lit (n : Int64) : Plain (lit n) (.atom (.lit n))
  | builtin (op : Builtin) : Plain (builtin op) (.atom (.builtin op))
  | fn {b : Nameless} {c : Curried} (body : Reads b c) : Plain (fn b) (.fn c)

theorem ne_nil_of_yields {op : Builtin} {values : List Int64} {value : Int64} {as : List Curried}
    (yields : op.Yields values value) (args : List.Forall₂ Reads (values.map lit) as) :
    as ≠ [] := by
  rintro rfl
  cases yields with
  | plus two _ _ =>
      rw [List.map_eq_nil_iff.1 (List.forall₂_nil_right_iff.1 args)] at two
      cases two
  | increment _ => cases args

theorem Waits.args_ne_nil {t : Nameless} {ts : List Nameless} (h : Waits t ts)
    {as : List Curried} (args : List.Forall₂ Reads ts as) : as ≠ [] := by
  intro has
  rw [has] at args
  cases args
  exact h.ne_nil rfl

theorem Reads.plain {w : Nameless} {u : Curried} (h : Reads w u) (hw : w.Normal)
    (hu : u.args = []) : Plain w u := by
  cases h with
  | bound i => exact .bound i
  | free x => exact .free x
  | lit n => exact .lit n
  | builtin op => exact .builtin op
  | fn body => exact .fn body
  | app head args =>
      rw [Curried.args_spine, List.append_eq_nil_iff] at hu
      exact absurd hu.2 ((normal_app_cons.1 hw).1.args_ne_nil args)
  | call args yields =>
      rw [Curried.args_spine, List.append_eq_nil_iff] at hu
      exact absurd hu.2 (ne_nil_of_yields yields args)

theorem Reads.of_spine {w : Nameless} {f : Curried} {as : List Curried}
    (h : Reads w (f.spine as)) (hw : w.Normal) (hf : f.IsLeaf) (has : as ≠ []) :
    (∃ t ts, w = .app (t :: ts) ∧ Reads t f ∧ List.Forall₂ Reads ts as) ∨
      ∃ op values value, w = .lit value ∧ f = .atom (.builtin op) ∧
        List.Forall₂ Reads (values.map .lit) as ∧ op.Yields values value := by
  have hargs : (f.spine as).args = as := by
    rw [Curried.args_spine, hf.args_eq, List.nil_append]
  generalize hu : f.spine as = u at h hargs
  cases h with
  | @app t ts g bs head args =>
      have hg := (normal_app_cons.1 hw).1.isLeaf head
      obtain ⟨rfl, rfl⟩ := Curried.spine_injective hf hg hu
      exact .inl ⟨t, ts, rfl, head, args⟩
  | @call op values value bs args yields =>
      have hop : (Curried.atom (.builtin op)).IsLeaf := trivial
      obtain ⟨rfl, rfl⟩ := Curried.spine_injective hf hop hu
      exact .inr ⟨op, values, value, rfl, rfl, args, yields⟩
  | _ => exact absurd hargs.symm has

theorem eq_of_reads {ts us : List Nameless} {as : List Curried}
    (unique : List.Forall₂
      (fun t a => ∃ _ : Reads t a, t.Normal → ∀ {w}, Reads w a → w.Normal → t = w) ts as)
    (hts : ∀ t ∈ ts, t.Normal) (reads : List.Forall₂ Reads us as) (hus : ∀ u ∈ us, u.Normal) :
    ts = us := by
  induction unique generalizing us with
  | nil =>
      cases reads
      rfl
  | cons h _ ih =>
      cases reads with
      | cons hread hreads =>
          obtain ⟨ht, hts⟩ := List.forall_mem_cons.1 hts
          obtain ⟨hu, hus⟩ := List.forall_mem_cons.1 hus
          obtain ⟨_, hunique⟩ := h
          rw [hunique ht hread hu, ih hts hreads hus]

theorem normal_literals (values : List Int64) : ∀ t ∈ values.map lit, t.Normal := by
  intro t ht
  obtain ⟨n, _, rfl⟩ := List.mem_map.1 ht
  trivial

/-- Normal forms that read the same curried term are equal. -/
theorem Reads.unique {v : Nameless} {u : Curried} (h : Reads v u) (hv : v.Normal) {w : Nameless}
    (hw : Reads w u) (normal : w.Normal) : v = w := by
  induction h using Reads.induct generalizing w with
  | bound _ | free _ | lit _ | builtin _ =>
      cases hw.plain normal rfl
      rfl
  | fn _ ih =>
      cases hw.plain normal rfl with
      | fn body => exact congrArg Nameless.fn (ih hv body normal)
  | @app t ts f as head args ih ihs =>
      obtain ⟨hwaits, hts⟩ := normal_app_cons.1 hv
      obtain ⟨t', ts', rfl, hhead, hargs⟩ | ⟨op, values, value, rfl, rfl, hargs, _⟩ :=
        hw.of_spine normal (hwaits.isLeaf head) (hwaits.args_ne_nil args)
      · obtain ⟨hwaits', hts'⟩ := normal_app_cons.1 normal
        rw [ih hwaits.normal hhead hwaits'.normal, eq_of_reads ihs hts hargs hts']
      · have hop := ih hwaits.normal (.builtin op) trivial
        rw [hop, eq_of_reads ihs hts hargs (normal_literals values)] at hwaits
        exact absurd hwaits (not_waits_literals op values)
  | @call op values value as args yields ihs =>
      obtain ⟨t, ts, rfl, hhead, hargs⟩ | ⟨op', values', value', rfl, hop, hargs, yields'⟩ :=
        hw.of_spine normal trivial (ne_nil_of_yields yields args)
      · obtain ⟨hwaits, hts⟩ := normal_app_cons.1 normal
        cases hhead.plain hwaits.normal rfl
        rw [← eq_of_reads ihs (normal_literals values) hargs hts] at hwaits
        exact absurd hwaits (not_waits_literals op values)
      · cases hop
        have hvalues := eq_of_reads ihs (normal_literals values) hargs (normal_literals values')
        have hsame : values = values' :=
          List.map_injective_iff.2 (fun m n h => Nameless.lit.inj h) hvalues
        rw [← hsame] at yields'
        rw [yields.unique yields']

theorem Reads.irreducible {v : Nameless} {u : Curried} (h : Reads v u) (hv : v.Normal) :
    u.Irreducible := by
  induction h using Reads.induct with
  | bound _ | free _ | lit _ | builtin _ =>
      intro u step
      cases step
  | fn _ ih =>
      intro u step
      cases step with
      | fn step => exact ih hv _ step
  | app head args _ ihs =>
      obtain ⟨hwaits, hts⟩ := normal_app_cons.1 hv
      apply (hwaits.isLeaf head).irreducible_spine
      intro a ha
      obtain ⟨t, ht, _, hirreducible⟩ := exists_mem_of_forall₂ ihs ha
      exact hirreducible (hts t ht)
  | @call _ values _ _ _ _ ihs =>
      apply Curried.IsLeaf.irreducible_spine (by trivial)
      intro a ha
      obtain ⟨t, ht, _, hirreducible⟩ := exists_mem_of_forall₂ ihs ha
      exact hirreducible (normal_literals values t ht)

/-- Terms that read convertible curried terms have the same normal forms. -/
theorem normal_unique_of_convertible {s t v w : Nameless} {a b : Curried} (hs : Reads s a)
    (ht : Reads t b) (hab : Curried.Convertible a b) (hv : Steps s v) (hw : Steps t w)
    (normalv : v.Normal) (normalw : w.Normal) : v = w := by
  obtain ⟨c, hac, hvc⟩ := hs.steps hv
  obtain ⟨d, hbd, hwd⟩ := ht.steps hw
  have hcd : c = d :=
    hab.irreducible_unique hac hbd (hvc.irreducible normalv) (hwd.irreducible normalw)
  rw [← hcd] at hwd
  exact hvc.unique normalv hwd normalw

/-- Terms that read a curried term and one it steps to have the same normal forms. -/
theorem normal_unique {s t v w : Nameless} {a b : Curried} (hs : Reads s a) (ht : Reads t b)
    (hab : Curried.Steps a b) (hv : Steps s v) (hw : Steps t w) (normalv : v.Normal)
    (normalw : w.Normal) : v = w :=
  normal_unique_of_convertible hs ht hab.convertible hv hw normalv normalw

end Nameless
end LambdaInt
