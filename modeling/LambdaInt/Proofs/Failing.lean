import LambdaInt.Proofs.Settling

/-!
How reduction fails without builtins. When every free name is known and the depth is enough, the
only cause left is a literal that is applied, and then the nameless term steps to one in which a
literal stands at the head of an application.
-/

namespace LambdaInt

namespace Nameless

/-- Somewhere in the term a literal is applied. -/
inductive AppliesLiteral : Nameless → Prop
  | here (n : Int64) (arg : Nameless) (args : List Nameless) :
      AppliesLiteral (app (lit n :: arg :: args))
  | body {b : Nameless} (body : AppliesLiteral b) : AppliesLiteral (fn b)
  | member {t : Nameless} {ts : List Nameless} (mem : t ∈ ts) (member : AppliesLiteral t) :
      AppliesLiteral (app ts)

/-- Some row of steps leads to a literal that is applied. -/
def Fails (t : Nameless) : Prop :=
  ∃ u, Steps t u ∧ AppliesLiteral u

theorem Fails.of_steps {t u : Nameless} (h : Fails u) (steps : Steps t u) : Fails t := by
  obtain ⟨v, hsteps, happlies⟩ := h
  exact ⟨v, steps.trans hsteps, happlies⟩

theorem Fails.body {b : Nameless} (h : Fails b) : Fails (fn b) := by
  obtain ⟨c, hsteps, happlies⟩ := h
  exact ⟨fn c, hsteps.body, .body happlies⟩

theorem Fails.member {t : Nameless} {ts : List Nameless} (h : Fails t) (mem : t ∈ ts) :
    Fails (app ts) := by
  obtain ⟨u, hsteps, happlies⟩ := h
  obtain ⟨before, after, rfl⟩ := List.append_of_mem mem
  refine ⟨_, hsteps.member before after, .member ?_ happlies⟩
  exact List.mem_append_right before List.mem_cons_self

theorem Fails.application {t : Nameless} (h : Fails t) (args : List Nameless) :
    Fails (t.application args) := by
  cases args with
  | nil => exact h
  | cons arg args => exact h.member List.mem_cons_self

end Nameless

namespace Term
open Nameless (Steps Step Fails)

mutual

def BuiltinFree : Term → Prop
  | var _ | lit _ => True
  | builtin _ => False
  | fn _ b => BuiltinFree b
  | app ts => BuiltinFreeAll ts

def BuiltinFreeAll : List Term → Prop
  | [] => True
  | t :: ts => BuiltinFree t ∧ BuiltinFreeAll ts

end

theorem builtinFree_app {ts : List Term} : (app ts).BuiltinFree ↔ ∀ t ∈ ts, t.BuiltinFree := by
  rw [BuiltinFree]
  induction ts with
  | nil => simp [BuiltinFreeAll]
  | cons t ts ih => simp [BuiltinFreeAll, ih]

theorem builtinFree_rename {old new : String} {t : Term} (h : t.BuiltinFree) :
    (t.rename old new).BuiltinFree := by
  induction t with
  | var x =>
      rw [rename]
      split <;> trivial
  | lit _ => trivial
  | builtin _ => exact h.elim
  | fn p b ih =>
      rw [rename]
      split
      · exact h
      · exact ih h
  | app ts ih =>
      rw [rename, renameAll_eq_map, builtinFree_app]
      intro u hu
      obtain ⟨t, ht, rfl⟩ := List.mem_map.1 hu
      exact ih t ht (builtinFree_app.1 h t ht)

theorem builtinFree_renameApart {used : List String} {p q : String} {b c : Term}
    (h : renameApart used p b = (q, c)) (hb : b.BuiltinFree) : c.BuiltinFree := by
  obtain ⟨_, rfl⟩ | ⟨_, rfl⟩ := renameApart_cases h
  · exact hb
  · exact builtinFree_rename hb

/-- A value without builtins where the given names are used. -/
structure Safe (used : List String) (t : Term) : Prop where
  covered : Covered used t
  builtinFree : t.BuiltinFree

/-- A term without builtins, of which every free name is used or has such a value. -/
structure Known (used : List String) (scope : Scope) (t : Term) : Prop where
  wellFormed : t.WellFormed
  found : ∀ x ∈ t.freeVars, x ∈ used ∨ ∃ v, scope.find? x = some v ∧ Safe used v
  builtinFree : t.BuiltinFree

section
variable {used : List String} {scope : Scope}

theorem Safe.known {t : Term} (h : Safe used t) (scope : Scope) : Known used scope t :=
  ⟨h.covered.wellFormed, fun x hx => .inl (h.covered.inScope x hx), h.builtinFree⟩

theorem safe_app {ts : List Term} (hlen : 2 ≤ ts.length) (h : ∀ t ∈ ts, Safe used t) :
    Safe used (app ts) := by
  refine ⟨⟨?_, fun x hx => ?_⟩, builtinFree_app.2 fun t ht => (h t ht).builtinFree⟩
  · exact wellFormed_app.2 ⟨hlen, fun t ht => (h t ht).covered.wellFormed⟩
  · obtain ⟨t, ht, hx⟩ := mem_freeVars_app.1 hx
    exact (h t ht).covered.inScope x hx

theorem Safe.member {ts : List Term} (h : Safe used (app ts)) {t : Term} (ht : t ∈ ts) :
    Safe used t :=
  ⟨⟨(wellFormed_app.1 h.covered.wellFormed).2 t ht,
    fun x hx => h.covered.inScope x (mem_freeVars_app.2 ⟨t, ht, hx⟩)⟩,
    builtinFree_app.1 h.builtinFree t ht⟩

theorem Known.body {p q : String} {b c : Term} (h : Known used scope (fn p b))
    (hqc : renameApart used p b = (q, c)) : Known (q :: used) (scope.child.set q (var q)) c := by
  refine ⟨wellFormed_renameApart hqc h.wellFormed, fun x hx => ?_,
    builtinFree_renameApart hqc h.builtinFree⟩
  by_cases hxq : x = q
  · exact .inl (hxq ▸ List.mem_cons_self)
  · have hfree := (eq_or_mem_of_renameApart hqc hx).resolve_left hxq
    obtain hused | ⟨v, hv, hsafe⟩ := h.found x hfree
    · exact .inl (List.mem_cons_of_mem q hused)
    · refine .inr ⟨v, ?_, hsafe.covered.cons q, hsafe.builtinFree⟩
      rw [Scope.find?_set, Scope.find?_child, if_neg hxq, hv]

theorem Known.argument {p q : String} {a b c : Term} (h : Safe used (fn p b)) (ha : Safe used a)
    (hqc : renameApart used p b = (q, c)) : Known used (scope.child.set q a) c := by
  have hc := h.covered.renameApart hqc
  refine ⟨hc.wellFormed, fun x hx => ?_, builtinFree_renameApart hqc h.builtinFree⟩
  obtain rfl | hx := List.mem_cons.1 (hc.inScope x hx)
  · exact .inr ⟨a, by rw [Scope.find?_set, if_pos rfl], ha⟩
  · exact .inl hx

theorem Known.member {ts : List Term} (h : Known used scope (app ts)) {t : Term} (ht : t ∈ ts) :
    Known used scope t :=
  ⟨(wellFormed_app.1 h.wellFormed).2 t ht,
    fun x hx => h.found x (mem_freeVars_app.2 ⟨t, ht, hx⟩), builtinFree_app.1 h.builtinFree t ht⟩

theorem Known.value {x : String} {v : Term} (h : Known used scope (var x)) (hx : x ∉ used)
    (hfind : scope.find? x = some v) : Safe used v := by
  obtain hused | ⟨w, hw, hsafe⟩ := h.found x List.mem_cons_self
  · exact absurd hused hx
  · rw [hfind] at hw
    exact Option.some.inj hw ▸ hsafe

theorem keeps_safe : Keeps Known Safe where
  body hqc h := h.body hqc
  member h ht := h.member ht
  value h hx hfind := (h.value hx hfind).known _
  argument hqc _ hf ha := Known.argument hf ha hqc
  var _ hx := ⟨covered_var hx, trivial⟩
  lit _ := ⟨⟨trivial, nofun⟩, trivial⟩
  builtin h := h.builtinFree.elim
  fn _ _ hr := by
    refine ⟨⟨hr.covered.wellFormed, fun x hx => ?_⟩, hr.builtinFree⟩
    obtain ⟨hx, hne⟩ := mem_freeVars_fn.1 hx
    exact (List.mem_cons.1 (hr.covered.inScope x hx)).resolve_left hne
  nil h := absurd (wellFormed_app.1 h.wellFormed).1 (by decide)
  call _ _ := ⟨⟨trivial, nofun⟩, trivial⟩
  wait hwaits hhead hargs := by
    have hlen := List.length_pos_iff.2 hwaits.ne_nil
    exact safe_app (Nat.succ_le_succ hlen) (List.forall_mem_cons.2 ⟨hhead, hargs⟩)
  extend hterms hargs := by
    have hlen := (wellFormed_app.1 hterms.covered.wellFormed).1
    refine safe_app ?_ (List.forall_mem_append.2 ⟨fun t ht => hterms.member ht, hargs⟩)
    rw [List.length_append]
    omega

end

section
variable {depth : Nat} {used : List String} {scope : Scope} {e : RuntimeError}

/-- Failure at this depth is failure of the nameless term. -/
def FailsAt (depth : Nat) : Prop :=
  ∀ {used : List String} {scope : Scope} {t : Term} {e : RuntimeError},
    t.reduce depth used scope = .error e → e ≠ .depthExceeded → Known used scope t →
      scope.All (Covered used) → ∀ σ, Fails (t.resolve (scope.meaning used σ))

theorem FailsAt.applyTo (fails : FailsAt depth) (hscope : scope.All (Covered used)) {head : Term}
    {args : List Term} (h : applyTo (betaBy (reduce depth used) used scope) head args = .error e)
    (he : e ≠ .depthExceeded) (hhead : Safe used head) (hargs : ∀ a ∈ args, Safe used a)
    (σ : String → Nameless) : Fails ((head.resolve σ).application (args.map (resolve σ))) := by
  induction args generalizing head with
  | nil =>
      rw [applyTo_nil] at h
      cases h
  | cons a args ih =>
      obtain ⟨ha, hargs⟩ := List.forall_mem_cons.1 hargs
      cases head with
      | var x => cases h
      | lit n => exact ⟨_, .refl, .here n _ _⟩
      | builtin op => exact hhead.builtinFree.elim
      | app terms =>
          rw [applyTo_app terms (List.cons_ne_nil a args)] at h
          cases h
      | fn p b =>
          cases hqc : renameApart used p b with
          | mk q c =>
              rw [applyTo_fn, betaBy_of_renameApart hqc] at h
              have hset : (scope.child.set q a).All (Covered used) := hscope.set ha.covered
              have hknown : Known used (scope.child.set q a) c := Known.argument hhead ha hqc
              have hstep : Step (((fn p b).resolve σ).application ((a :: args).map (resolve σ)))
                  (((b.resolve (bind σ p)).instantiate (a.resolve σ)).application
                    (args.map (resolve σ))) := .beta _ _ _
              obtain hbody | ⟨u, hbody, h⟩ := Except.bind_eq_error_iff.1 h
              · have hfails := fails hbody he hknown hset σ
                rw [resolve_argument hhead.covered hqc] at hfails
                exact (hfails.application _).of_steps (.single hstep)
              · have hsteps := soundAt depth hbody hknown.wellFormed hset σ
                rw [resolve_argument hhead.covered hqc] at hsteps
                have hfails := ih h (keeps_safe.reduce hbody hknown) hargs
                exact hfails.of_steps (.head hstep (hsteps.application _))

theorem fails_fn (fails : FailsAt depth) (hscope : scope.All (Covered used)) {p : String}
    {b : Term} (h : (fn p b).reduce (depth + 1) used scope = .error e) (he : e ≠ .depthExceeded)
    (ht : Known used scope (fn p b)) (σ : String → Nameless) :
    Fails ((fn p b).resolve (scope.meaning used σ)) := by
  cases hqc : renameApart used p b with
  | mk q c =>
      have hbody := reduce_fn_eq_error hqc h
      have hfails := fails hbody he (ht.body hqc) (all_body hscope q) (bind σ q)
      rw [resolve_body hscope hqc] at hfails
      exact hfails.body

theorem fails_app (fails : FailsAt depth) (hscope : scope.All (Covered used)) {head : Term}
    {args : List Term} (h : (app (head :: args)).reduce (depth + 1) used scope = .error e)
    (he : e ≠ .depthExceeded) (ht : Known used scope (app (head :: args)))
    (σ : String → Nameless) : Fails ((app (head :: args)).resolve (scope.meaning used σ)) := by
  have member {t : Term} (hmem : t ∈ head :: args) (h : t.reduce depth used scope = .error e) :
      Fails ((app (head :: args)).resolve (scope.meaning used σ)) := by
    rw [resolve_app]
    exact (fails h he (ht.member hmem) hscope σ).member (List.mem_map_of_mem hmem)
  obtain hmembers | ⟨head', args', hhead, hargs, happly⟩ := reduce_app_eq_error_iff.1 h
  · obtain ⟨t, hmem, herror⟩ := Except.mapM_eq_error hmembers
    exact member hmem herror
  · have hmapM := Except.mapM_eq_ok_iff.1 hargs
    have hsteps := SoundAt.members (soundAt depth) hscope ht.wellFormed hhead hmapM σ
    have hsafe : ∀ a ∈ args', Safe used a := by
      intro a ha
      obtain ⟨t, hmem, hred⟩ := exists_mem_of_forall₂ hmapM ha
      exact keeps_safe.reduce hred (ht.member (List.mem_cons_of_mem head hmem))
    have hfails := fails.applyTo hscope happly he
      (keeps_safe.reduce hhead (ht.member List.mem_cons_self)) hsafe σ
    exact hfails.of_steps hsteps

theorem failsAt (depth : Nat) : FailsAt depth := by
  induction depth with
  | zero =>
      intro used scope t e h he
      cases h
      exact absurd rfl he
  | succ depth ih =>
      intro used scope t e h he ht hscope σ
      cases t with
      | var x =>
          by_cases hx : x ∈ used
          · rw [reduce_var_of_mem hx] at h
            cases h
          · obtain hused | ⟨value, hfind, hsafe⟩ := ht.found x List.mem_cons_self
            · exact absurd hused hx
            · rw [reduce_var_of_find? hx hfind] at h
              have hfails := ih h he (hsafe.known scope) hscope σ
              rwa [hsafe.covered.resolve_meaning, ← Scope.meaning_of_find? hx hfind] at hfails
      | lit _ | builtin _ => cases h
      | fn p b => exact fails_fn ih hscope h he ht σ
      | app ts =>
          cases ts with
          | nil => cases h
          | cons head args => exact fails_app ih hscope h he ht σ

end
end Term
end LambdaInt
