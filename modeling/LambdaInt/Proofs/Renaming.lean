import LambdaInt.Term.Rename
import LambdaInt.Term.Shape
import Mathlib.Data.List.Basic

/-!
What renaming keeps: the shape of a term, and its free names up to the one that is renamed. A
function renamed apart has the free names it had, at the same places.
-/

namespace LambdaInt.Term

theorem wellFormed_rename {old new : String} {t : Term} (h : t.WellFormed) :
    (t.rename old new).WellFormed := by
  induction t with
  | var x =>
      rw [rename]
      split <;> trivial
  | lit _ | builtin _ => trivial
  | fn p b ih =>
      rw [rename]
      split
      · exact h
      · exact ih h
  | app ts ih =>
      obtain ⟨hlen, hts⟩ := wellFormed_app.1 h
      rw [rename, renameAll_eq_map]
      refine wellFormed_app.2 ⟨by simpa using hlen, ?_⟩
      intro u hu
      obtain ⟨t, ht, rfl⟩ := List.mem_map.1 hu
      exact ih t ht (hts t ht)

/-- The free occurrences stay where they are, and those of the old name become the new one. -/
theorem freeVars_rename {old new : String} {t : Term} (h : new ∉ t.params) :
    (t.rename old new).freeVars = t.freeVars.map fun x => if x = old then new else x := by
  induction t with
  | var x =>
      rw [rename]
      split <;> simp_all [freeVars]
  | lit _ | builtin _ => rfl
  | fn p b ih =>
      obtain ⟨hnew, hb⟩ := not_or.1 (mt List.mem_cons.2 h)
      by_cases hp : p = old
      · have hold : ∀ x ∈ (fn p b).freeVars, (if x = old then new else x) = x :=
          fun x hx => if_neg (hp ▸ (mem_freeVars_fn.1 hx).2)
        rw [rename, if_pos hp, List.map_congr_left hold, List.map_id']
      · rw [rename, if_neg hp, freeVars, freeVars, ih hb, List.filter_map]
        refine congrArg _ (List.filter_congr fun x _ => ?_)
        change ((if x = old then new else x) != p) = (x != p)
        split
        · rename_i hold
          rw [hold, bne_iff_ne.2 hnew, bne_iff_ne.2 (Ne.symm hp)]
        · rfl
  | app ts ih =>
      have hts : ∀ t ∈ ts, new ∉ t.params := fun t ht hmem => h (mem_params_app.2 ⟨t, ht, hmem⟩)
      rw [rename, renameAll_eq_map, freeVars, freeVars, freeVarsAll_eq_flatMap,
        freeVarsAll_eq_flatMap, List.flatMap_map, List.map_flatMap]
      exact List.flatMap_congr fun t ht => ih t ht (hts t ht)

theorem mem_freeVars_rename {old new x : String} {t : Term} (h : new ∉ t.params) :
    x ∈ (t.rename old new).freeVars ↔ x = new ∧ old ∈ t.freeVars ∨ x ∈ t.freeVars ∧ x ≠ old := by
  rw [freeVars_rename h, List.mem_map]
  constructor
  · rintro ⟨y, hy, rfl⟩
    by_cases hold : y = old
    · exact .inl ⟨if_pos hold, hold ▸ hy⟩
    · rw [if_neg hold]
      exact .inr ⟨hy, hold⟩
  · rintro (⟨rfl, hold⟩ | ⟨hx, hne⟩)
    · exact ⟨old, hold, if_pos rfl⟩
    · exact ⟨x, hx, if_neg hne⟩

theorem freeVars_rename_ne_nil {old new : String} {t : Term} (hnew : new ∉ t.params)
    (h : t.freeVars ≠ []) : (t.rename old new).freeVars ≠ [] := by
  obtain ⟨x, hx⟩ := List.exists_mem_of_ne_nil _ h
  by_cases hold : x = old
  · exact List.ne_nil_of_mem ((mem_freeVars_rename hnew).2 (.inl ⟨rfl, hold ▸ hx⟩))
  · exact List.ne_nil_of_mem ((mem_freeVars_rename hnew).2 (.inr ⟨hx, hold⟩))

/-- No parameter may catch the new name, for a builtin could be waiting for that alone. -/
theorem normal_rename {old new : String} {t : Term} (hnew : new ∉ t.params) (h : t.Normal) :
    (t.rename old new).Normal := by
  induction t with
  | var x =>
      rw [rename]
      split <;> trivial
  | lit _ | builtin _ => trivial
  | fn p b ih =>
      rw [rename]
      split
      · exact h
      · exact ih (fun hmem => hnew (List.mem_cons_of_mem p hmem)) h
  | app ts ih =>
      cases ts with
      | nil => exact h.elim
      | cons head args =>
          have hts : ∀ t ∈ head :: args, new ∉ t.params :=
            fun t ht hmem => hnew (mem_params_app.2 ⟨t, ht, hmem⟩)
          obtain ⟨hwaits, hargs⟩ := normal_app_cons.1 h
          rw [rename, renameAll_eq_map, List.map_cons, normal_app_cons]
          constructor
          · cases head with
            | var x =>
                rw [rename]
                split <;> simpa [Waits] using hwaits
            | builtin op =>
                obtain ⟨arg, harg, hfree⟩ := hwaits
                refine ⟨_, List.mem_map_of_mem harg, ?_⟩
                exact freeVars_rename_ne_nil (hts arg (List.mem_cons_of_mem _ harg)) hfree
            | _ => exact hwaits.elim
          · intro u hu
            obtain ⟨t, ht, rfl⟩ := List.mem_map.1 hu
            have hmem := List.mem_cons_of_mem head ht
            exact ih t hmem (hts t hmem) (hargs t ht)

/-- What a function renamed apart is: the function itself, or one with a new parameter. -/
theorem renameApart_cases {used : List String} {p q : String} {b c : Term}
    (h : renameApart used p b = (q, c)) :
    q = p ∧ c = b ∨ q ∉ b.allVars ∧ c = b.rename p q := by
  unfold renameApart at h
  split at h
  · cases h
    exact .inr ⟨fun hmem => freshen_not_mem _ p (List.mem_append_right used hmem), rfl⟩
  · cases h
    exact .inl ⟨rfl, rfl⟩

theorem wellFormed_renameApart {used : List String} {p q : String} {b c : Term}
    (h : renameApart used p b = (q, c)) (hb : b.WellFormed) : c.WellFormed := by
  obtain ⟨_, rfl⟩ | ⟨_, rfl⟩ := renameApart_cases h
  · exact hb
  · exact wellFormed_rename hb

theorem normal_renameApart {used : List String} {p q : String} {b c : Term}
    (h : renameApart used p b = (q, c)) (hb : b.Normal) : c.Normal := by
  obtain ⟨_, rfl⟩ | ⟨hq, rfl⟩ := renameApart_cases h
  · exact hb
  · exact normal_rename (mt mem_allVars_of_mem_params hq) hb

/-- Renaming apart moves no free occurrence: they are read in the same order. -/
theorem freeVars_renameApart {used : List String} {p q : String} {b c : Term}
    (h : renameApart used p b = (q, c)) : (fn q c).freeVars = (fn p b).freeVars := by
  obtain ⟨rfl, rfl⟩ | ⟨hq, rfl⟩ := renameApart_cases h
  · rfl
  · have hrename (x : String) (hx : x ∈ b.freeVars) :
        ((if x = p then q else x) != q) = (x != p) := by
      have hxq : x ≠ q := fun heq => hq (heq ▸ mem_allVars_of_mem_freeVars hx)
      split
      · rename_i hxp
        simp [hxp]
      · rename_i hxp
        rw [bne_iff_ne.2 hxq, bne_iff_ne.2 hxp]
    have hkept : ∀ x ∈ (fn p b).freeVars, (if x = p then q else x) = x :=
      fun x hx => if_neg (mem_freeVars_fn.1 hx).2
    calc
      (fn q (b.rename p q)).freeVars
        = (b.freeVars.map fun x => if x = p then q else x).filter fun x => x != q := by
          rw [freeVars, freeVars_rename (mt mem_allVars_of_mem_params hq)]
      _ = (b.freeVars.filter fun x => x != p).map fun x => if x = p then q else x := by
          rw [List.filter_map]
          exact congrArg _ (List.filter_congr hrename)
      _ = (fn p b).freeVars := by
          rw [← freeVars, List.map_congr_left hkept, List.map_id']

theorem mem_freeVars_renameApart {used : List String} {p q x : String} {b c : Term}
    (h : renameApart used p b = (q, c)) : x ∈ (fn q c).freeVars ↔ x ∈ (fn p b).freeVars := by
  rw [freeVars_renameApart h]

/-- The body below a parameter renamed apart mentions that and what the function mentions. -/
theorem eq_or_mem_of_renameApart {used : List String} {p q x : String} {b c : Term}
    (h : renameApart used p b = (q, c)) (hx : x ∈ c.freeVars) :
    x = q ∨ x ∈ (fn p b).freeVars := by
  by_cases hxq : x = q
  · exact .inl hxq
  · exact .inr ((mem_freeVars_renameApart h).1 (mem_freeVars_fn.2 ⟨hx, hxq⟩))

theorem inScope_renameApart {used : List String} {p q : String} {b c : Term}
    (h : renameApart used p b = (q, c)) (hused : ∀ x ∈ (fn p b).freeVars, x ∈ used) :
    ∀ x ∈ c.freeVars, x ∈ q :: used := by
  intro x hx
  obtain rfl | hmem := eq_or_mem_of_renameApart h hx
  · exact List.mem_cons_self
  · exact List.mem_cons_of_mem q (hused x hmem)

end LambdaInt.Term
