import LambdaInt.Proofs.Hygiene
import LambdaInt.Proofs.Renaming

/-!
Values are normal forms, no higher than the depth that gave them, and each value is its own value
at that depth: nothing is renamed, looked up or applied when it is reduced once more.
-/

namespace LambdaInt

/-- Every value that the scope finds has the property. -/
def Scope.All (P : Term → Prop) (scope : Scope) : Prop :=
  ∀ x v, scope.find? x = some v → P v

theorem Scope.All.set {P : Term → Prop} {scope : Scope} (h : scope.All P) {q : String} {a : Term}
    (ha : P a) : (scope.child.set q a).All P := by
  intro x v hfind
  rw [find?_set, find?_child] at hfind
  split at hfind
  · exact Option.some.inj hfind ▸ ha
  · exact h x v hfind

namespace Term

theorem Waits.append {head : Term} {args : List Term} (h : Waits head args) (more : List Term) :
    Waits head (args ++ more) := by
  cases head with
  | var _ => exact List.append_ne_nil_of_left_ne_nil h more
  | builtin _ =>
      obtain ⟨arg, harg, hfree⟩ := h
      exact ⟨arg, List.mem_append_left more harg, hfree⟩
  | _ => exact h.elim

theorem Normal.exists_waits {ts : List Term} (h : (app ts).Normal) :
    ∃ head args, ts = head :: args ∧ Waits head args ∧ ∀ t ∈ args, t.Normal := by
  cases ts with
  | nil => exact h.elim
  | cons head args => exact ⟨head, args, rfl, normal_app_cons.1 h⟩

theorem keeps_normal :
    Keeps (fun _ scope t => t.WellFormed ∧ scope.All WellFormed) fun _ => Normal where
  body hqc h := ⟨wellFormed_renameApart hqc h.1, h.2.set trivial⟩
  member h ht := ⟨(wellFormed_app.1 h.1).2 _ ht, h.2⟩
  value h _ hfind := ⟨h.2 _ _ hfind, h.2⟩
  argument hqc h hf ha := ⟨wellFormed_renameApart hqc (Normal.wellFormed hf), h.2.set ha.wellFormed⟩
  var _ _ := trivial
  lit _ := trivial
  builtin _ := trivial
  fn _ _ hr := hr
  nil h := absurd (wellFormed_app.1 h.1).1 (by decide)
  call _ _ := trivial
  wait hwaits _ hargs := normal_app_cons.2 ⟨hwaits, hargs⟩
  extend hterms hargs := by
    obtain ⟨head, args, rfl, hwaits, hnormal⟩ := hterms.exists_waits
    exact normal_app_cons.2 ⟨hwaits.append _, List.forall_mem_append.2 ⟨hnormal, hargs⟩⟩

theorem normal_of_reduce {depth : Nat} {used : List String} {scope : Scope} {t r : Term}
    (h : t.reduce depth used scope = .ok r) (ht : t.WellFormed) (hscope : scope.All WellFormed) :
    r.Normal :=
  keeps_normal.reduce h ⟨ht, hscope⟩

mutual

/-- The depth that reduction takes to walk through the term. -/
def height : Term → Nat
  | var _ | lit _ | builtin _ => 1
  | fn _ b => height b + 1
  | app ts => heightAll ts + 1

def heightAll : List Term → Nat
  | [] => 0
  | t :: ts => max (height t) (heightAll ts)

end

theorem heightAll_le_iff {ts : List Term} {n : Nat} :
    heightAll ts ≤ n ↔ ∀ t ∈ ts, t.height ≤ n := by
  induction ts with
  | nil => simp [heightAll]
  | cons t ts ih => simp [heightAll, ih]

theorem height_app_le_iff {ts : List Term} {n : Nat} :
    (app ts).height ≤ n + 1 ↔ ∀ t ∈ ts, t.height ≤ n := by
  rw [height, Nat.add_le_add_iff_right, heightAll_le_iff]

theorem height_pos (t : Term) : 1 ≤ t.height := by
  cases t <;> simp [height]

/-- Taking arguments adds at most one application on top of what is there. -/
theorem height_le_of_applies {beta : String → Term → Term → Except RuntimeError Term} {n : Nat}
    (hbeta : ∀ {p b a u}, beta p b a = .ok u → u.height ≤ n) {head r : Term} {args : List Term}
    (h : Applies beta head args r) (hhead : head.height ≤ n) (hargs : ∀ a ∈ args, a.height ≤ n) :
    r.height ≤ n + 1 := by
  induction h with
  | done _ => omega
  | beta body _ ih => exact ih (hbeta body) fun a ha => hargs a (List.mem_cons_of_mem _ ha)
  | call _ _ result =>
      obtain ⟨_, _, _, _, rfl⟩ := Builtin.apply_eq_ok_iff.1 result
      exact Nat.le_add_left 1 n
  | wait _ => exact height_app_le_iff.2 (List.forall_mem_cons.2 ⟨hhead, hargs⟩)
  | extend _ =>
      have hterms := height_app_le_iff.1 (Nat.le_succ_of_le hhead)
      exact height_app_le_iff.2 (List.forall_mem_append.2 ⟨hterms, hargs⟩)

theorem height_le_of_reduce {depth : Nat} {used : List String} {scope : Scope} {t r : Term}
    (h : t.reduce depth used scope = .ok r) : r.height ≤ depth := by
  induction depth generalizing used scope t r with
  | zero => cases h
  | succ depth ih =>
      cases t with
      | var x =>
          obtain ⟨_, rfl⟩ | ⟨_, value, _, hvalue⟩ := reduce_var_eq_ok h
          · exact Nat.le_add_left 1 depth
          · exact Nat.le_succ_of_le (ih hvalue)
      | lit _ | builtin _ =>
          cases h
          exact Nat.le_add_left 1 depth
      | fn p b =>
          obtain ⟨r', hr', rfl⟩ := reduce_fn_eq_ok rfl h
          exact Nat.succ_le_succ (ih hr')
      | app ts =>
          cases ts with
          | nil =>
              cases h
              exact Nat.le_add_left 1 depth
          | cons head args =>
              obtain ⟨head', args', hhead, hargs, happ⟩ := reduce_app_eq_ok h
              refine height_le_of_applies (fun body => ih body) happ (ih hhead) ?_
              intro a ha
              obtain ⟨t, _, hred⟩ := exists_mem_of_forall₂ hargs ha
              exact ih hred

/-- A normal form that is tidy for the names in use is its own value, whatever the scope holds. -/
theorem Normal.reduce_self {t : Term} (h : t.Normal) {used : List String} (tidy : Tidy used t)
    {depth : Nat} (hdepth : t.height ≤ depth) (scope : Scope) :
    t.reduce depth used scope = .ok t := by
  induction t generalizing used depth scope with
  | var x =>
      obtain ⟨depth, rfl⟩ := Nat.exists_eq_add_of_le' hdepth
      exact reduce_var_of_mem (tidy_var.1 tidy)
  | lit _ | builtin _ =>
      obtain ⟨depth, rfl⟩ := Nat.exists_eq_add_of_le' hdepth
      rfl
  | fn p b ih =>
      obtain ⟨hp, hb⟩ := tidy_fn.1 tidy
      have hpos : 1 ≤ depth := Nat.le_trans (Nat.le_add_left 1 b.height) hdepth
      obtain ⟨depth, rfl⟩ := Nat.exists_eq_add_of_le' hpos
      have hbody := ih h hb (Nat.le_of_succ_le_succ hdepth) (scope.child.set p (var p))
      rw [reduce_fn_of_renameApart (renameApart_of_not_mem b hp), hbody]
      rfl
  | app ts ih =>
      obtain ⟨head, args, rfl, hwaits, hargs⟩ := h.exists_waits
      have hpos : 1 ≤ depth := Nat.le_trans (height_pos _) hdepth
      obtain ⟨depth, rfl⟩ := Nat.exists_eq_add_of_le' hpos
      have hself : ∀ t ∈ head :: args, t.reduce depth used scope = .ok t := by
        intro t ht
        have hnormal : t.Normal := by
          obtain rfl | ht := List.mem_cons.1 ht
          · exact hwaits.normal
          · exact hargs t ht
        exact ih t ht hnormal (tidy_app.1 tidy t ht) (height_app_le_iff.1 hdepth t ht) scope
      obtain ⟨hhead, hrest⟩ := List.forall_mem_cons.1 hself
      rw [reduce_app_cons, hhead, Except.mapM_eq_ok_iff.2 (List.forall₂_same.2 hrest)]
      exact applyTo_of_waits hwaits

theorem heightAll_map_congr {ts : List Term} {f : Term → Term}
    (h : ∀ t ∈ ts, (f t).height = t.height) : heightAll (ts.map f) = heightAll ts := by
  induction ts with
  | nil => rfl
  | cons t ts ih =>
      obtain ⟨ht, hts⟩ := List.forall_mem_cons.1 h
      rw [List.map_cons, heightAll, heightAll, ht, ih hts]

theorem height_rename (old new : String) (t : Term) : (t.rename old new).height = t.height := by
  induction t with
  | var x =>
      rw [rename]
      split <;> rfl
  | lit _ | builtin _ => rfl
  | fn p b ih =>
      rw [rename]
      split
      · rfl
      · rw [height, ih, height]
  | app ts ih =>
      rw [rename, renameAll_eq_map, height, height, heightAll_map_congr ih]

theorem height_renameApart {used : List String} {p q : String} {b c : Term}
    (h : renameApart used p b = (q, c)) : c.height = b.height := by
  obtain ⟨_, rfl⟩ | ⟨_, rfl⟩ := renameApart_cases h
  · rfl
  · exact height_rename p q b

theorem exists_forall₂ {α β : Type} {R : α → β → Prop} {as : List α} (h : ∀ a ∈ as, ∃ b, R a b) :
    ∃ bs, List.Forall₂ R as bs := by
  induction as with
  | nil => exact ⟨[], .nil⟩
  | cons a as ih =>
      obtain ⟨⟨b, hb⟩, has⟩ := List.forall_mem_cons.1 h
      obtain ⟨bs, hbs⟩ := ih has
      exact ⟨b :: bs, .cons hb hbs⟩

theorem freeVars_app_congr {ts us : List Term}
    (h : List.Forall₂ (fun t u => ∀ x, x ∈ u.freeVars ↔ x ∈ t.freeVars) ts us) (x : String) :
    x ∈ (app us).freeVars ↔ x ∈ (app ts).freeVars := by
  rw [mem_freeVars_app, mem_freeVars_app]
  constructor
  · rintro ⟨u, hu, hx⟩
    obtain ⟨t, ht, hsame⟩ := exists_mem_of_forall₂ h hu
    exact ⟨t, ht, (hsame x).1 hx⟩
  · rintro ⟨t, ht, hx⟩
    obtain ⟨u, hu, hsame⟩ := exists_mem_of_forall₂ h.flip ht
    exact ⟨u, hu, (hsame x).2 hx⟩

/-- A head that waits for a free name still does when the arguments keep their free names. -/
theorem Waits.of_forall₂ {head : Term} {args args' : List Term} (h : Waits head args)
    (hfree : List.Forall₂ (fun t u => ∀ x, x ∈ u.freeVars ↔ x ∈ t.freeVars) args args') :
    Waits head args' := by
  cases head with
  | var _ =>
      intro hnil
      rw [hnil] at hfree
      cases hfree
      exact h rfl
  | builtin _ =>
      obtain ⟨arg, harg, hne⟩ := h
      obtain ⟨u, hu, hsame⟩ := exists_mem_of_forall₂ hfree.flip harg
      obtain ⟨x, hx⟩ := List.exists_mem_of_ne_nil _ hne
      exact ⟨u, hu, List.ne_nil_of_mem ((hsame x).2 hx)⟩
  | _ => exact h.elim

theorem Waits.reduce_self {head : Term} {args : List Term} (h : Waits head args)
    {used : List String} (hused : ∀ x ∈ head.freeVars, x ∈ used) {depth : Nat}
    (hdepth : head.height ≤ depth) (scope : Scope) :
    head.reduce depth used scope = .ok head := by
  have hpos : 1 ≤ depth := Nat.le_trans (height_pos head) hdepth
  obtain ⟨depth, rfl⟩ := Nat.exists_eq_add_of_le' hpos
  cases head with
  | var x => exact reduce_var_of_mem (hused x List.mem_cons_self)
  | builtin op => rfl
  | _ => exact h.elim

/-- A normal form whose names are used reduces within its height, whatever must be renamed. -/
theorem Normal.exists_reduce {t : Term} (h : t.Normal) {used : List String}
    (hused : ∀ x ∈ t.freeVars, x ∈ used) {depth : Nat} (hdepth : t.height ≤ depth)
    (scope : Scope) :
    ∃ v, t.reduce depth used scope = .ok v ∧ ∀ x, x ∈ v.freeVars ↔ x ∈ t.freeVars := by
  induction depth generalizing t used scope with
  | zero => exact absurd (Nat.le_trans (height_pos t) hdepth) (by decide)
  | succ depth ih =>
      cases t with
      | var x => exact ⟨var x, reduce_var_of_mem (hused x List.mem_cons_self), fun _ => Iff.rfl⟩
      | lit n => exact ⟨lit n, rfl, fun _ => Iff.rfl⟩
      | builtin op => exact ⟨builtin op, rfl, fun _ => Iff.rfl⟩
      | fn p b =>
          cases hqc : renameApart used p b with
          | mk q c =>
              have hc : ∀ x ∈ c.freeVars, x ∈ q :: used := inScope_renameApart hqc hused
              have hheight : c.height ≤ depth := by
                rw [height_renameApart hqc]
                exact Nat.le_of_succ_le_succ hdepth
              obtain ⟨r, hr, hfree⟩ := ih (normal_renameApart hqc h) hc hheight
                (scope.child.set q (var q))
              refine ⟨fn q r, ?_, fun x => ?_⟩
              · rw [reduce_fn_of_renameApart hqc, hr]
                rfl
              · rw [← mem_freeVars_renameApart hqc, mem_freeVars_fn, mem_freeVars_fn, hfree x]
      | app ts =>
          obtain ⟨head, args, rfl, hwaits, hargs⟩ := h.exists_waits
          have hmembers : ∀ t ∈ head :: args, ∀ x ∈ t.freeVars, x ∈ used := by
            intro t ht x hx
            exact hused x (mem_freeVars_app.2 ⟨t, ht, hx⟩)
          obtain ⟨husedHead, husedArgs⟩ := List.forall_mem_cons.1 hmembers
          obtain ⟨hheight, hheights⟩ := List.forall_mem_cons.1 (height_app_le_iff.1 hdepth)
          obtain ⟨args', hargs'⟩ := exists_forall₂ fun t ht =>
            ih (hargs t ht) (husedArgs t ht) (hheights t ht) scope
          have hhead : head.reduce depth used scope = .ok head :=
            hwaits.reduce_self husedHead hheight scope
          have hfree := hargs'.imp fun _ _ => And.right
          have hwaits' := hwaits.of_forall₂ hfree
          refine ⟨app (head :: args'), ?_, ?_⟩
          · rw [reduce_app_cons, hhead, Except.mapM_eq_ok_iff.2 (hargs'.imp fun _ _ => And.left)]
            exact applyTo_of_waits hwaits'
          · exact freeVars_app_congr (.cons (fun _ => Iff.rfl) hfree)

end Term
end LambdaInt
