import LambdaInt.Term.Basic

/-!
Frames: finite tables from names to terms. The entries are kept in strictly increasing order of
names, by code points, so that two frames with the same answers are equal.
-/

namespace LambdaInt

/-- Puts the entry in its place; an entry of the same name is replaced. -/
def insertEntry (name : String) (value : Term) : List (String × Term) → List (String × Term)
  | [] => [(name, value)]
  | (y, w) :: rest =>
      if name < y then (name, value) :: (y, w) :: rest
      else if name = y then (name, value) :: rest
      else (y, w) :: insertEntry name value rest

theorem fst_mem_insertEntry {name : String} {value : Term} {entries : List (String × Term)}
    {e : String × Term} (h : e ∈ insertEntry name value entries) :
    e.1 = name ∨ e ∈ entries := by
  induction entries with
  | nil => simp_all [insertEntry]
  | cons e' rest ih =>
      obtain ⟨y, w⟩ := e'
      simp only [insertEntry] at h
      split at h
      · rcases List.mem_cons.1 h with rfl | h
        · exact .inl rfl
        · exact .inr h
      · split at h
        · rcases List.mem_cons.1 h with rfl | h
          · exact .inl rfl
          · exact .inr (List.mem_cons_of_mem _ h)
        · rcases List.mem_cons.1 h with rfl | h
          · exact .inr (by simp)
          · exact (ih h).imp_right (List.mem_cons_of_mem _)

theorem pairwise_insertEntry {name : String} {value : Term} {entries : List (String × Term)}
    (h : entries.Pairwise fun a b => a.1 < b.1) :
    (insertEntry name value entries).Pairwise fun a b => a.1 < b.1 := by
  induction entries with
  | nil => simp [insertEntry]
  | cons e rest ih =>
      obtain ⟨y, w⟩ := e
      obtain ⟨hy, hrest⟩ := List.pairwise_cons.1 h
      simp only [insertEntry]
      split
      next hlt =>
        refine List.pairwise_cons.2 ⟨fun e he => ?_, h⟩
        rcases List.mem_cons.1 he with rfl | he
        · exact hlt
        · exact String.lt_trans hlt (hy e he)
      next hlt =>
        split
        next heq =>
          subst heq
          exact List.pairwise_cons.2 ⟨hy, hrest⟩
        next hne =>
          refine List.pairwise_cons.2 ⟨fun e he => ?_, ih hrest⟩
          rcases fst_mem_insertEntry he with heq | he
          · have hle : y ≤ name := String.not_lt.1 hlt
            rw [heq]
            refine Decidable.byContradiction fun hnlt => hne ?_
            exact String.le_antisymm (String.not_lt.1 hnlt) hle
          · exact hy e he

structure Frame where
  entries : List (String × Term)
  sorted : entries.Pairwise fun a b => a.1 < b.1

namespace Frame

def empty : Frame :=
  ⟨[], .nil⟩

/-- Binds the name to the value, in place of what it was bound to. -/
def set (frame : Frame) (name : String) (value : Term) : Frame :=
  ⟨insertEntry name value frame.entries, pairwise_insertEntry frame.sorted⟩

def find? (frame : Frame) (name : String) : Option Term :=
  frame.entries.lookup name

/-- The names that the frame binds, in increasing order. -/
def names (frame : Frame) : List String :=
  frame.entries.map Prod.fst

@[simp] theorem find?_empty (x : String) : empty.find? x = none :=
  rfl

theorem lookup_insertEntry (entries : List (String × Term)) (x : String) (v : Term) (y : String) :
    (insertEntry x v entries).lookup y = if y = x then some v else entries.lookup y := by
  by_cases h : y = x
  · subst h
    induction entries with
    | nil => simp [insertEntry]
    | cons e rest ih =>
        obtain ⟨z, w⟩ := e
        simp only [insertEntry]
        split
        · simp
        · split
          · simp
          next hne => simp [List.lookup_cons, beq_false_of_ne hne, ih]
  · rw [if_neg h]
    induction entries with
    | nil => simp [insertEntry, List.lookup_cons, beq_false_of_ne h]
    | cons e rest ih =>
        obtain ⟨z, w⟩ := e
        simp only [insertEntry]
        split
        · simp [List.lookup_cons (k := x), beq_false_of_ne h]
        · split
          next heq =>
            subst heq
            simp [List.lookup_cons, beq_false_of_ne h]
          · simp [List.lookup_cons, ih]

@[simp] theorem find?_set (frame : Frame) (x : String) (v : Term) (y : String) :
    (frame.set x v).find? y = if y = x then some v else frame.find? y :=
  lookup_insertEntry frame.entries x v y

theorem lookup_eq_none_of_lt {entries : List (String × Term)} {x : String}
    (h : ∀ e ∈ entries, x < e.1) : entries.lookup x = none := by
  rw [List.lookup_eq_none_iff]
  intro e he
  have hne : x ≠ e.1 := fun heq => String.lt_irrefl e.1 (heq ▸ h e he)
  simpa using hne

theorem lookup_head (e : String × Term) (rest : List (String × Term)) :
    (e :: rest).lookup e.1 = some e.2 := by
  obtain ⟨x, v⟩ := e
  simp

theorem not_lt_of_lookup_eq {a b : String × Term} {as bs : List (String × Term)}
    (hb : (b :: bs).Pairwise fun a b => a.1 < b.1)
    (h : ∀ x, (a :: as).lookup x = (b :: bs).lookup x) : ¬ a.1 < b.1 := by
  intro hlt
  have hbelow : ∀ e ∈ b :: bs, a.1 < e.1 := by
    intro e he
    rcases List.mem_cons.1 he with rfl | he
    · exact hlt
    · exact String.lt_trans hlt ((List.pairwise_cons.1 hb).1 e he)
  have hnone := h a.1
  rw [lookup_head, lookup_eq_none_of_lt hbelow] at hnone
  cases hnone

/-- Sorted entries are determined by their answers. -/
theorem entries_ext {as bs : List (String × Term)} (ha : as.Pairwise fun a b => a.1 < b.1)
    (hb : bs.Pairwise fun a b => a.1 < b.1) (h : ∀ x, as.lookup x = bs.lookup x) : as = bs := by
  induction as generalizing bs with
  | nil =>
      cases bs with
      | nil => rfl
      | cons b bs =>
          have := h b.1
          simp [lookup_head] at this
  | cons a as ih =>
      cases bs with
      | nil =>
          have := h a.1
          simp [lookup_head] at this
      | cons b bs =>
          have hname : a.1 = b.1 :=
            String.le_antisymm (String.not_lt.1 (not_lt_of_lookup_eq ha fun x => (h x).symm))
              (String.not_lt.1 (not_lt_of_lookup_eq hb h))
          obtain ⟨ha', has⟩ := List.pairwise_cons.1 ha
          obtain ⟨hb', hbs⟩ := List.pairwise_cons.1 hb
          have hvalue : a.2 = b.2 := by
            have := h a.1
            rw [lookup_head, hname, lookup_head] at this
            exact Option.some.inj this
          have htail : as = bs := ih has hbs fun x => by
            by_cases hx : x = a.1
            · rw [hx, lookup_eq_none_of_lt ha', lookup_eq_none_of_lt (hname ▸ hb')]
            · have := h x
              rwa [List.lookup_cons, List.lookup_cons, beq_false_of_ne hx,
                beq_false_of_ne (hname ▸ hx)] at this
          rw [htail, Prod.ext hname hvalue]

/-- Frames with the same answers are equal. -/
theorem ext_find? {f g : Frame} (h : ∀ x, f.find? x = g.find? x) : f = g := by
  obtain ⟨as, ha⟩ := f
  obtain ⟨bs, hb⟩ := g
  have heq : as = bs := entries_ext ha hb h
  subst heq
  rfl

/-- The entries are the answers, for no name has two. -/
theorem find?_eq_some_iff {frame : Frame} {x : String} {v : Term} :
    frame.find? x = some v ↔ (x, v) ∈ frame.entries := by
  obtain ⟨entries, sorted⟩ := frame
  change entries.lookup x = some v ↔ (x, v) ∈ entries
  induction entries with
  | nil => simp
  | cons e rest ih =>
      obtain ⟨hlt, hrest⟩ := List.pairwise_cons.1 sorted
      obtain ⟨y, w⟩ := e
      rw [List.lookup_cons, List.mem_cons]
      by_cases hxy : x = y
      · subst hxy
        have hmem : (x, v) ∉ rest := fun h => String.lt_irrefl x (hlt (x, v) h)
        simp [hmem, eq_comm]
      · simp [beq_false_of_ne hxy, hxy, ih hrest]

theorem names_sorted (frame : Frame) : frame.names.Pairwise (· < ·) :=
  List.pairwise_map.2 frame.sorted

/-- Looked up one by one, the names give back the entries. -/
theorem filterMap_names (frame : Frame) :
    (frame.names.filterMap fun x => (frame.find? x).map fun v => (x, v)) = frame.entries := by
  have main (entries : List (String × Term)) (h : ∀ e ∈ entries, frame.find? e.1 = some e.2) :
      ((entries.map Prod.fst).filterMap fun x => (frame.find? x).map fun v => (x, v)) =
        entries := by
    induction entries with
    | nil => rfl
    | cons e entries ih =>
        obtain ⟨he, hentries⟩ := List.forall_mem_cons.1 h
        rw [List.map_cons, List.filterMap_cons, he, ih hentries]
        rfl
  exact main frame.entries fun _ he => find?_eq_some_iff.2 he

end Frame
end LambdaInt
