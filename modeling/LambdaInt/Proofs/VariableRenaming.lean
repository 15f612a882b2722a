import LambdaInt.Proofs.AlphaLaws

/-!
Renaming of a free variable to a name that is no parameter of the term. In the nameless form it puts
the new name in the place of the old one and does nothing else, although the new name may be free in
the term already. If the new name does not occur at all, renaming back restores the term.
-/

namespace LambdaInt.Term

theorem rename_of_not_mem_freeVars {old : String} {t : Term} (h : old ∉ t.freeVars)
    (new : String) : t.rename old new = t := by
  induction t with
  | var x =>
      have hne : x ≠ old := fun heq => h (heq ▸ List.mem_cons_self)
      rw [rename, if_neg hne]
  | lit _ | builtin _ => rfl
  | fn p b ih =>
      rw [rename]
      split
      next => rfl
      next hp => rw [ih fun hmem => h (mem_freeVars_fn.2 ⟨hmem, Ne.symm hp⟩)]
  | app ts ih =>
      have hts : ∀ t ∈ ts, old ∉ t.freeVars :=
        fun t ht hmem => h (mem_freeVars_app.2 ⟨t, ht, hmem⟩)
      rw [rename, renameAll_eq_map, List.map_congr_left fun t ht => ih t ht (hts t ht),
        List.map_id']

/-- Below a parameter of the old name nothing is renamed, and a new name is not found there. -/
theorem rename_rename_back {old new : String} {t : Term} (h : new ∉ t.allVars) :
    (t.rename old new).rename new old = t := by
  induction t with
  | var x =>
      by_cases hx : x = old
      · rw [rename, if_pos hx, rename, if_pos rfl, hx]
      · have hne : x ≠ new := fun heq => h (heq ▸ List.mem_cons_self)
        rw [rename, if_neg hx, rename, if_neg hne]
  | lit _ | builtin _ => rfl
  | fn p b ih =>
      obtain ⟨hne, hb⟩ := not_or.1 (mt List.mem_cons.2 h)
      by_cases hp : p = old
      · rw [rename, if_pos hp]
        exact rename_of_not_mem_freeVars (fun hmem => h (mem_allVars_of_mem_freeVars hmem)) old
      · rw [rename, if_neg hp, rename, if_neg (Ne.symm hne), ih hb]
  | app ts ih =>
      have hts : ∀ t ∈ ts, (rename new old ∘ rename old new) t = t :=
        fun t ht => ih t ht fun hmem => h (mem_allVars_app.2 ⟨t, ht, hmem⟩)
      rw [rename, renameAll_eq_map, rename, renameAll_eq_map, List.map_map,
        List.map_congr_left hts, List.map_id']

section
variable {old new : String} {t : Term} (h : new ∉ t.params)
include h

theorem nameless_rename :
    (t.rename old new).nameless [] =
      (t.nameless []).replace fun x => if x = old then some (.free new) else none := by
  have hvalue : (fun x => if x = old then some (Nameless.free new) else none) =
      fun x => (if x = old then some (var new) else none).map (nameless []) := by
    funext x
    split <;> rfl
  rw [hvalue, replace_nameless, nameless_eq_resolve, named_nil, resolve_rename h]
  refine congrArg (resolve · t) ?_
  funext x
  by_cases hx : x = old
  · rw [hx, Function.update_self, Nameless.replace, if_pos rfl]
    rfl
  · rw [Function.update_of_ne hx, Nameless.replace, if_neg hx]
    rfl

theorem alphaEquivalent_rename {u : Term} (hu : new ∉ u.params)
    (htu : t.alphaEquivalent u = true) :
    (t.rename old new).alphaEquivalent (u.rename old new) = true := by
  rw [alphaEquivalent_iff_resolve, resolve_rename h, resolve_rename hu]
  exact alphaEquivalent_resolve htu _

end

/-- Renaming to a name that is no parameter of the term replaces the free occurrences of the old
name and nothing else, and none of them is caught; the free variables are those of the term, renamed;
renaming back restores the term if the new name did not occur in it; and terms that differ at most in
the names of parameters do so when renamed. -/
theorem renaming_is_substitution (t : Term) (old new : String) (h : new ∉ t.params) :
    (t.rename old new).nameless [] =
      (t.nameless []).replace (fun x => if x = old then some (.free new) else none) ∧
    (t.rename old new).freeVars = t.freeVars.map (fun x => if x = old then new else x) ∧
    (new ∉ t.allVars → (t.rename old new).rename new old = t) ∧
    ∀ u : Term, new ∉ u.params → t.alphaEquivalent u = true →
      (t.rename old new).alphaEquivalent (u.rename old new) = true :=
  ⟨nameless_rename h, freeVars_rename h, rename_rename_back,
    fun _ hu htu => alphaEquivalent_rename h hu htu⟩

/-- The old name is free, and a parameter as well; the new one is free in the term already. -/
theorem renaming_is_substitution_merged :
    "y" ∉ (app [var "x", var "y", fn "x" (var "x")]).params ∧
      (app [var "x", var "y", fn "x" (var "x")]).rename "x" "y" =
        app [var "y", var "y", fn "x" (var "x")] ∧
      (app [var "y", var "y", fn "x" (var "x")]).nameless [] =
        ((app [var "x", var "y", fn "x" (var "x")]).nameless []).replace
          (fun x => if x = "x" then some (.free "y") else none) ∧
      (app [var "y", var "y", fn "x" (var "x")]).freeVars =
        ["x", "y"].map (fun x => if x = "x" then "y" else x) ∧
      ((app [var "x", fn "x" (var "x")]).rename "x" "x'").rename "x'" "x" =
        app [var "x", fn "x" (var "x")] ∧
      (app [var "y", var "y", fn "x" (var "x")]).alphaEquivalent
        (app [var "y", var "y", fn "z" (var "z")]) = true := by
  have hparams : "y" ∉ (app [var "x", var "y", fn "x" (var "x")]).params := by decide
  obtain ⟨hmeaning, hfree, _, hsame⟩ := renaming_is_substitution _ "x" "y" hparams
  obtain ⟨_, _, hback, _⟩ :=
    renaming_is_substitution (app [var "x", fn "x" (var "x")]) "x" "x'" (by decide)
  exact ⟨hparams, rfl, hmeaning, hfree, hback (by decide),
    hsame (app [var "x", var "y", fn "z" (var "z")]) (by decide) (by cbv)⟩

end LambdaInt.Term
