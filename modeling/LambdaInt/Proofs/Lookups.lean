import LambdaInt.Scope
import Mathlib

/-!
Scopes told by their history. Operations are carried out one after the other, beginning at an empty
root. A level is counted, one up when a frame is entered and one down when it is left; so a frame in
which something was set is there in the end if the level was not below its own since. A lookup answers
with what was set last in the innermost of these frames that has the name, and a frame that was
entered and left again leaves no trace.
-/

namespace LambdaInt.Scope

inductive Operation
  | set (name : String) (value : Term)
  | find (name : String)
  | names
  | push
  | pop

inductive Reply
  | done
  | found (value : Option Term)
  | listed (names : List String)

/-- Leaving the root does nothing. -/
def act (scope : Scope) : Operation → Reply × Scope
  | .set x v => (.done, scope.set x v)
  | .find x => (.found (scope.find? x), scope)
  | .names => (.listed scope.names, scope)
  | .push => (.done, scope.child)
  | .pop => (.done, scope.parent?.getD scope)

/-- Carries out the operations one after the other. -/
def run (scope : Scope) : List Operation → List Reply × Scope
  | [] => ([], scope)
  | op :: ops =>
      let (reply, scope) := scope.act op
      let (replies, scope) := scope.run ops
      (reply :: replies, scope)

theorem run_append (scope : Scope) (ops others : List Operation) :
    scope.run (ops ++ others) =
      ((scope.run ops).1 ++ ((scope.run ops).2.run others).1,
        ((scope.run ops).2.run others).2) := by
  induction ops generalizing scope with
  | nil => rfl
  | cons op ops ih => simp only [List.cons_append, run, ih]

theorem length_run (scope : Scope) (ops : List Operation) :
    (scope.run ops).1.length = ops.length := by
  induction ops generalizing scope with
  | nil => rfl
  | cons op ops ih => exact congrArg Nat.succ (ih _)

/-- The reply to an operation depends on those before it alone. -/
theorem run_reply (scope : Scope) (past : List Operation) (op : Operation) (rest : List Operation) :
    (scope.run (past ++ op :: rest)).1[past.length]? = some ((scope.run past).2.act op).1 := by
  rw [run_append, List.getElem?_append_right (length_run scope past).le, length_run, Nat.sub_self]
  rfl

/-- The level that an operation leads to. -/
def Operation.move (op : Operation) (level : Nat) : Nat :=
  match op with
  | push => level + 1
  | pop => level - 1
  | _ => level

def levelAfter (ops : List Operation) : Nat :=
  ops.foldl (fun level op => op.move level) 0

theorem levelAfter_concat (ops : List Operation) (op : Operation) :
    levelAfter (ops ++ [op]) = op.move (levelAfter ops) := by
  rw [levelAfter, List.foldl_append]
  rfl

/-- From operation `k` on, no frame at the level is left. -/
def Stays (ops : List Operation) (level k : Nat) : Prop :=
  ∀ j, k ≤ j → level ≤ levelAfter (ops.take j)

/-- Operation `k` sets the name to the value in a frame at the level, which is live in the end. -/
structure SetsAt (ops : List Operation) (level k : Nat) (x : String) (v : Term) : Prop where
  operation : ops[k]? = some (.set x v)
  level_eq : levelAfter (ops.take k) = level
  live : Stays ops level k

/-- The value is the last one that the name is set to in the live frame at the level. -/
def LastAt (ops : List Operation) (level : Nat) (x : String) (v : Term) : Prop :=
  ∃ k, SetsAt ops level k x v ∧ ∀ k' w, SetsAt ops level k' x w → k' ≤ k

/-- The value is the last one that the name is set to in the innermost live frame in which it is
set. -/
def Newest (ops : List Operation) (x : String) (v : Term) : Prop :=
  ∃ level k, SetsAt ops level k x v ∧
    ∀ level' k' w, SetsAt ops level' k' x w → level' < level ∨ level' = level ∧ k' ≤ k

section
variable {ops : List Operation} {op : Operation} {level k : Nat} {x : String} {v w : Term}

theorem SetsAt.lt_length (h : SetsAt ops level k x v) : k < ops.length :=
  (List.getElem?_eq_some_iff.1 h.operation).1

theorem SetsAt.level_le (h : SetsAt ops level k x v) : level ≤ levelAfter ops := by
  have hlive := h.live ops.length h.lt_length.le
  rwa [List.take_length] at hlive

theorem take_concat_of_le {j : Nat} (h : j ≤ ops.length) : (ops ++ [op]).take j = ops.take j :=
  List.take_append_of_le_length h

theorem stays_concat (hk : k ≤ ops.length) :
    Stays (ops ++ [op]) level k ↔ Stays ops level k ∧ level ≤ levelAfter (ops ++ [op]) := by
  have hwhole {j : Nat} (hj : ops.length < j) : (ops ++ [op]).take j = ops ++ [op] :=
    List.take_of_length_le (by simpa using hj)
  constructor
  · intro h
    have hbefore (j : Nat) (hj : k ≤ j) (hlen : j ≤ ops.length) : level ≤ levelAfter (ops.take j) :=
      take_concat_of_le hlen ▸ h j hj
    refine ⟨fun j hj => ?_, hwhole (Nat.lt_succ_self _) ▸ h (ops.length + 1) (by omega)⟩
    obtain hlen | hlen := Nat.le_total j ops.length
    · exact hbefore j hj hlen
    · have hend := hbefore ops.length hk le_rfl
      rwa [List.take_length, ← List.take_of_length_le hlen] at hend
  · rintro ⟨h, hend⟩ j hj
    obtain hlen | hlen := Nat.lt_or_ge ops.length j
    · rwa [hwhole hlen]
    · exact take_concat_of_le hlen ▸ h j hj

/-- At a level that is not left, one more operation adds at most itself. -/
theorem setsAt_concat (hlevel : level ≤ levelAfter (ops ++ [op])) :
    SetsAt (ops ++ [op]) level k x v ↔
      SetsAt ops level k x v ∨ k = ops.length ∧ op = .set x v ∧ levelAfter ops = level := by
  constructor
  · intro h
    have hk : k ≤ ops.length := Nat.le_of_lt_succ (by simpa using h.lt_length)
    have hoperation := h.operation
    have hmade := h.level_eq
    rw [take_concat_of_le hk] at hmade
    obtain hlt | rfl := Nat.lt_or_eq_of_le hk
    · rw [List.getElem?_append_left hlt] at hoperation
      exact .inl ⟨hoperation, hmade, ((stays_concat hk).1 h.live).1⟩
    · rw [List.getElem?_concat_length] at hoperation
      rw [List.take_length] at hmade
      exact .inr ⟨rfl, Option.some.inj hoperation, hmade⟩
  · rintro (h | ⟨rfl, rfl, rfl⟩)
    · have hk : k ≤ ops.length := h.lt_length.le
      refine ⟨?_, ?_, (stays_concat hk).2 ⟨h.live, hlevel⟩⟩
      · rw [List.getElem?_append_left h.lt_length, h.operation]
      · rw [take_concat_of_le hk, h.level_eq]
    · refine ⟨List.getElem?_concat_length, ?_, (stays_concat le_rfl).2 ⟨fun j hj => ?_, hlevel⟩⟩
      · rw [take_concat_of_le le_rfl, List.take_length]
      · rw [List.take_of_length_le hj]

theorem lastAt_concat (hlevel : level ≤ levelAfter (ops ++ [op]))
    (hother : ∀ w, op = .set x w → levelAfter ops ≠ level) :
    LastAt (ops ++ [op]) level x v ↔ LastAt ops level x v := by
  have hsame (k : Nat) (w : Term) : SetsAt (ops ++ [op]) level k x w ↔ SetsAt ops level k x w :=
    (setsAt_concat hlevel).trans (or_iff_left fun ⟨_, hset, hmade⟩ => hother w hset hmade)
  simp only [LastAt, hsame]

theorem lastAt_concat_set :
    LastAt (ops ++ [Operation.set x w]) (levelAfter ops) x v ↔ w = v := by
  have hlevel : levelAfter ops ≤ levelAfter (ops ++ [Operation.set x w]) :=
    (levelAfter_concat ops (.set x w)).ge
  have hnew : SetsAt (ops ++ [Operation.set x w]) (levelAfter ops) ops.length x w :=
    (setsAt_concat hlevel).2 (.inr ⟨rfl, rfl, rfl⟩)
  constructor
  · rintro ⟨k, hk, hlast⟩
    obtain hold | ⟨_, hset, _⟩ := (setsAt_concat hlevel).1 hk
    · exact absurd (hlast _ _ hnew) (Nat.not_le_of_lt hold.lt_length)
    · cases hset
      rfl
  · rintro rfl
    refine ⟨ops.length, hnew, fun k' w' h => Nat.le_of_lt_succ ?_⟩
    simpa using h.lt_length

theorem SetsAt.exists_lastAt (h : SetsAt ops level k x w) : ∃ v, LastAt ops level x v := by
  have hbounded : BddAbove {k | ∃ v, SetsAt ops level k x v} :=
    ⟨ops.length, fun _ ⟨_, h⟩ => h.lt_length.le⟩
  obtain ⟨k, ⟨v, hk⟩, hgreatest⟩ := hbounded.exists_isGreatest_of_nonempty ⟨k, w, h⟩
  exact ⟨v, k, hk, fun k' w h => hgreatest ⟨w, h⟩⟩

end

/-- Innermost first. -/
def frames (scope : Scope) : List Frame :=
  scope.inner :: scope.outer

theorem length_of_frames_eq {scope : Scope} {within around : List Frame} {frame : Frame}
    (h : scope.frames = within ++ frame :: around) :
    within.length + around.length = scope.level := by
  have hlength := congrArg List.length h
  simp only [frames, List.length_append, List.length_cons] at hlength
  rw [level]
  omega

/-- The frame with more frames around it is further in. -/
theorem mem_of_length_lt {scope : Scope} {within within' around around' : List Frame}
    {frame frame' : Frame} (h : scope.frames = within ++ frame :: around)
    (h' : scope.frames = within' ++ frame' :: around') (hlt : around.length < around'.length) :
    frame' ∈ within := by
  have hlength := length_of_frames_eq h
  have hlength' := length_of_frames_eq h'
  have hat : scope.frames[within'.length]? = some frame' := by
    rw [h', List.getElem?_append_right le_rfl, Nat.sub_self]
    rfl
  rw [h, List.getElem?_append_left (by omega)] at hat
  exact List.mem_of_getElem? hat

theorem exists_frame {scope : Scope} {level : Nat} (h : level ≤ scope.level) :
    ∃ within frame around, scope.frames = within ++ frame :: around ∧ around.length = level := by
  have hlength : scope.frames.length = scope.level + 1 := rfl
  have hlt : scope.level - level < scope.frames.length := by omega
  refine ⟨scope.frames.take (scope.level - level), scope.frames[scope.level - level],
    scope.frames.drop (scope.level - level + 1), ?_, ?_⟩
  · rw [← List.drop_eq_getElem_cons hlt, List.take_append_drop]
  · rw [List.length_drop]
    omega

/-- The frames of the scope hold what the operations set in the live frames. -/
structure Follows (ops : List Operation) (scope : Scope) : Prop where
  level : scope.level = levelAfter ops
  frame {within around : List Frame} {frame : Frame} :
    scope.frames = within ++ frame :: around →
      ∀ x v, frame.find? x = some v ↔ LastAt ops around.length x v

theorem follows_root : Follows [] (root .empty) where
  level := rfl
  frame {within around frame} h x v := by
    obtain ⟨rfl, h⟩ | ⟨_, _, h⟩ := List.cons_eq_append_iff.1 h
    · cases h
      refine iff_of_false nofun ?_
      rintro ⟨k, hk, _⟩
      exact Nat.not_lt_zero k hk.lt_length
    · exact absurd (congrArg List.length h) (by simp [root])

section
variable {ops : List Operation} {scope : Scope} (h : Follows ops scope)
include h

/-- A frame that is there before and after an operation is as it was, unless that sets a name in
it. -/
theorem Follows.kept {op : Operation} {within around : List Frame} {frame : Frame}
    (hframes : scope.frames = within ++ frame :: around)
    (hlive : around.length ≤ levelAfter (ops ++ [op])) {x : String}
    (hother : ∀ w, op = .set x w → around.length ≠ scope.level) (v : Term) :
    frame.find? x = some v ↔ LastAt (ops ++ [op]) around.length x v := by
  rw [h.frame hframes, lastAt_concat hlive]
  exact fun w hset hlevel => hother w hset (hlevel.symm.trans h.level.symm)

theorem Follows.stay {op : Operation} (hlevel : op.move scope.level = scope.level)
    (hother : ∀ x w, op ≠ .set x w) : Follows (ops ++ [op]) scope := by
  have hafter : scope.level = levelAfter (ops ++ [op]) := by
    rw [levelAfter_concat, ← h.level, hlevel]
  refine ⟨hafter, fun {within around frame} hframes x v => ?_⟩
  have hlength := length_of_frames_eq hframes
  exact h.kept hframes (by omega) (fun w hset => absurd hset (hother x w)) v

theorem Follows.set (y : String) (w : Term) :
    Follows (ops ++ [Operation.set y w]) (scope.set y w) := by
  have hafter : scope.level = levelAfter (ops ++ [Operation.set y w]) := by
    rw [levelAfter_concat, ← h.level]
    rfl
  refine ⟨hafter, fun {within around frame} hframes x v => ?_⟩
  have hsplit : scope.inner.set y w :: scope.outer = within ++ frame :: around := hframes
  obtain ⟨rfl, hhead⟩ | ⟨within, rfl, htail⟩ := List.cons_eq_append_iff.1 hsplit
  · obtain ⟨rfl, rfl⟩ := List.cons.inj hhead
    have hlevel : scope.outer.length = levelAfter ops := h.level
    have hcurrent : scope.frames = [] ++ scope.inner :: scope.outer := rfl
    by_cases hx : x = y
    · rw [Frame.find?_set, if_pos hx, hlevel, hx, lastAt_concat_set, Option.some.injEq]
    · rw [Frame.find?_set, if_neg hx]
      have hother (w' : Term) : Operation.set y w = .set x w' → scope.outer.length ≠ scope.level :=
        fun hset => absurd (Operation.set.inj hset).1.symm hx
      exact h.kept hcurrent hafter.le hother v
  · have hframes' : scope.frames = (scope.inner :: within) ++ frame :: around :=
      congrArg (scope.inner :: ·) htail
    have hlength := length_of_frames_eq hframes'
    rw [List.length_cons] at hlength
    exact h.kept hframes' (by omega) (fun _ _ => by omega) v

theorem Follows.child : Follows (ops ++ [Operation.push]) scope.child := by
  have hafter : scope.level + 1 = levelAfter (ops ++ [Operation.push]) := by
    rw [levelAfter_concat, ← h.level]
    rfl
  refine ⟨hafter, fun {within around frame} hframes x v => ?_⟩
  have hsplit : Frame.empty :: scope.frames = within ++ frame :: around := hframes
  obtain ⟨rfl, hhead⟩ | ⟨within, rfl, htail⟩ := List.cons_eq_append_iff.1 hsplit
  · -- nothing was set at the new level yet
    obtain ⟨rfl, rfl⟩ := List.cons.inj hhead
    have hlevel : scope.frames.length = scope.level + 1 := rfl
    refine iff_of_false nofun ?_
    rw [hlevel, lastAt_concat hafter.le nofun]
    rintro ⟨k, hk, _⟩
    exact Nat.not_succ_le_self _ (h.level.symm ▸ hk.level_le)
  · have hlength := length_of_frames_eq htail
    refine h.kept htail (by omega) ?_ v
    exact nofun

theorem Follows.parent {frame : Frame} {outer : List Frame}
    (houter : scope.outer = frame :: outer) :
    Follows (ops ++ [Operation.pop]) ⟨frame, outer⟩ := by
  have hlevel : scope.level = outer.length + 1 := by
    rw [Scope.level, houter, List.length_cons]
  have hafter : outer.length = levelAfter (ops ++ [Operation.pop]) := by
    rw [levelAfter_concat, ← h.level, hlevel]
    rfl
  refine ⟨hafter, fun {within around frame'} hframes x v => ?_⟩
  have hframes' : scope.frames = (scope.inner :: within) ++ frame' :: around := by
    rw [frames, houter]
    exact congrArg (scope.inner :: ·) hframes
  have hlength := length_of_frames_eq hframes'
  rw [List.length_cons] at hlength
  refine h.kept hframes' (by omega) ?_ v
  exact nofun

theorem Follows.act (op : Operation) : Follows (ops ++ [op]) (scope.act op).2 := by
  cases op with
  | set y w => exact h.set y w
  | find _ | names => exact h.stay rfl nofun
  | push => exact h.child
  | pop =>
      rw [Scope.act, parent?]
      cases houter : scope.outer with
      | nil =>
          have hlevel : scope.level = 0 := congrArg List.length houter
          exact h.stay (by rw [hlevel]; rfl) nofun
      | cons frame outer => exact h.parent houter

end

theorem follows_run (ops : List Operation) : Follows ops ((root .empty).run ops).2 := by
  induction ops using List.reverseRecOn with
  | nil => exact follows_root
  | append_singleton ops op ih =>
      rw [run_append]
      exact ih.act op

section
variable {ops : List Operation} {scope : Scope} (h : Follows ops scope) {x : String}
include h

/-- What is set in a live frame is found in that. -/
theorem Follows.exists_find? {level k : Nat} {w : Term} (hset : SetsAt ops level k x w) :
    ∃ within frame around, scope.frames = within ++ frame :: around ∧ around.length = level ∧
      ∃ v, frame.find? x = some v := by
  obtain ⟨within, frame, around, hframes, hlevel⟩ := exists_frame (h.level ▸ hset.level_le)
  obtain ⟨v, hlast⟩ := hset.exists_lastAt
  exact ⟨within, frame, around, hframes, hlevel, v, (h.frame hframes x v).2 (hlevel ▸ hlast)⟩

theorem Follows.find?_eq_some_iff {v : Term} : scope.find? x = some v ↔ Newest ops x v := by
  change scope.frames.findSome? _ = some v ↔ _
  rw [List.findSome?_eq_some_iff]
  constructor
  · rintro ⟨within, frame, around, hframes, hfound, hnone⟩
    obtain ⟨k, hk, hlast⟩ := (h.frame hframes x v).1 hfound
    refine ⟨around.length, k, hk, fun level' k' w hset => ?_⟩
    obtain hlt | heq | hgt := Nat.lt_trichotomy level' around.length
    · exact .inl hlt
    · exact .inr ⟨heq, hlast k' w (heq ▸ hset)⟩
    · -- a frame further in would have answered
      obtain ⟨within', frame', around', hframes', rfl, v', hfound'⟩ := h.exists_find? hset
      rw [hnone frame' (mem_of_length_lt hframes hframes' hgt)] at hfound'
      cases hfound'
  · rintro ⟨level, k, hk, hnewest⟩
    obtain ⟨within, frame, around, hframes, rfl⟩ := exists_frame (h.level ▸ hk.level_le)
    refine ⟨within, frame, around, hframes, (h.frame hframes x v).2 ⟨k, hk, ?_⟩, ?_⟩
    · intro k' w hset
      exact (hnewest _ k' w hset).elim (fun hlt => absurd hlt (Nat.lt_irrefl _)) And.right
    · -- what a frame further in has was set at a higher level
      intro frame' hmem
      obtain ⟨inside, between, rfl⟩ := List.mem_iff_append.1 hmem
      rw [List.append_assoc] at hframes
      cases hfound : frame'.find? x with
      | none => rfl
      | some w =>
          obtain ⟨k', hk', _⟩ := (h.frame hframes x w).1 hfound
          have hlevel := hnewest _ k' w hk'
          simp only [List.append_eq, List.length_append, List.length_cons] at hlevel
          omega

theorem Follows.find?_eq_none_iff :
    scope.find? x = none ↔ ∀ level k v, ¬ SetsAt ops level k x v := by
  constructor
  · intro hnone level k v hset
    obtain ⟨within, frame, around, hframes, _, w, hfound⟩ := h.exists_find? hset
    have hmem : frame ∈ scope.frames := hframes ▸ List.mem_append_right within List.mem_cons_self
    rw [List.findSome?_eq_none_iff.1 hnone frame hmem] at hfound
    cases hfound
  · intro hnever
    cases hfind : scope.find? x with
    | none => rfl
    | some v =>
        obtain ⟨level, k, hk, _⟩ := h.find?_eq_some_iff.1 hfind
        exact absurd hk (hnever level k v)

theorem Follows.mem_names_iff : x ∈ scope.names ↔ ∃ k v, SetsAt ops (levelAfter ops) k x v := by
  have hmem : x ∈ scope.names ↔ ∃ v, scope.inner.find? x = some v := by
    simp [names, Frame.names, Frame.find?_eq_some_iff]
  have hlevel : scope.outer.length = levelAfter ops := h.level
  have hcurrent : scope.frames = [] ++ scope.inner :: scope.outer := rfl
  rw [hmem]
  constructor
  · rintro ⟨v, hfound⟩
    obtain ⟨k, hk, _⟩ := (h.frame hcurrent x v).1 hfound
    exact ⟨k, v, hlevel ▸ hk⟩
  · rintro ⟨k, w, hset⟩
    obtain ⟨v, hlast⟩ := hset.exists_lastAt
    exact ⟨v, (h.frame hcurrent x v).2 (hlevel ▸ hlast)⟩

end

/-- Every frame that is entered is left again, and no other. -/
inductive Balanced : List Operation → Prop
  | nil : Balanced []
  | set (x : String) (v : Term) {ops : List Operation} (rest : Balanced ops) :
      Balanced (.set x v :: ops)
  | find (x : String) {ops : List Operation} (rest : Balanced ops) : Balanced (.find x :: ops)
  | names {ops : List Operation} (rest : Balanced ops) : Balanced (.names :: ops)
  | frame {ops others : List Operation} (inside : Balanced ops) (rest : Balanced others) :
      Balanced (.push :: (ops ++ .pop :: others))

/-- A frame leaves nothing behind if the frames around it are as they were when it was entered. -/
theorem run_frame {scope : Scope} {ops : List Operation}
    (houter : (scope.child.run ops).2.outer = scope.child.outer) :
    (scope.run (.push :: (ops ++ [Operation.pop]))).2 = scope := by
  change (scope.child.run (ops ++ [Operation.pop])).2 = scope
  rw [run_append]
  change (parent? _).getD _ = scope
  rw [parent?, houter]
  rfl

theorem Balanced.outer_run {ops : List Operation} (h : Balanced ops) (scope : Scope) :
    (scope.run ops).2.outer = scope.outer := by
  induction h generalizing scope with
  | nil => rfl
  | set x v _ ih => exact ih (scope.set x v)
  | find _ _ ih | names _ ih => exact ih scope
  | @frame ops others _ _ ihInside ihRest =>
      have hsplit : Operation.push :: (ops ++ Operation.pop :: others) =
          Operation.push :: (ops ++ [Operation.pop]) ++ others := by
        simp
      rw [hsplit, run_append, run_frame (ihInside scope.child)]
      exact ihRest scope

/-- In every run from an empty root, a lookup answers with the last value that the name was set to
in the innermost live frame in which it was set, and with nothing if there is none; the names listed
are those set in the current frame, once each and in order; and when a frame that was entered is left,
with balanced operations in between, everything is as it was before. -/
theorem lookups_follow_operations :
    (∀ (past : List Operation) (x : String) (rest : List Operation), ∃ value,
      ((root .empty).run (past ++ .find x :: rest)).1[past.length]? = some (.found value) ∧
      (∀ v, value = some v ↔ Newest past x v) ∧
      (value = none ↔ ∀ level k v, ¬ SetsAt past level k x v)) ∧
    (∀ past rest : List Operation, ∃ listed,
      ((root .empty).run (past ++ .names :: rest)).1[past.length]? = some (.listed listed) ∧
      listed.Pairwise (· < ·) ∧
      ∀ x, x ∈ listed ↔ ∃ k v, SetsAt past (levelAfter past) k x v) ∧
    ∀ past inside later : List Operation, Balanced inside →
      ((root .empty).run (past ++ .push :: (inside ++ [.pop]))).2.run later =
        ((root .empty).run past).2.run later := by
  refine ⟨fun past x rest => ?_, fun past rest => ?_, fun past inside later h => ?_⟩
  · have hfollows := follows_run past
    exact ⟨_, run_reply _ past _ rest, fun v => hfollows.find?_eq_some_iff,
      hfollows.find?_eq_none_iff⟩
  · have hfollows := follows_run past
    exact ⟨_, run_reply _ past _ rest, Frame.names_sorted _, fun x => hfollows.mem_names_iff⟩
  · rw [run_append, run_frame (h.outer_run _)]

/-- The root is not left at first. A name is set there and hidden twice, in a frame that is left and
in one that stays. -/
theorem lookups_follow_operations_hidden :
    ((root .empty).run [.pop, .set "x" (.lit 1), .push, .set "x" (.lit 2), .pop, .push,
        .set "y" (.lit 3), .set "x" (.lit 4), .names, .find "x", .pop, .find "x", .find "y"]).1 =
      [.done, .done, .done, .done, .done, .done, .done, .done, .listed ["x", "y"],
        .found (some (.lit 4)), .done, .found (some (.lit 1)), .found none] ∧
    Newest [.pop, .set "x" (.lit 1), .push, .set "x" (.lit 2), .pop, .push, .set "y" (.lit 3),
      .set "x" (.lit 4), .names] "x" (.lit 4) ∧
    Balanced [.set "x" (.lit 2), .push, .set "y" (.lit 3), .pop] ∧
    ∀ later, ((root .empty).run [.set "x" (.lit 1), .push, .set "x" (.lit 2), .push,
        .set "y" (.lit 3), .pop, .pop]).2.run later =
      ((root .empty).run [.set "x" (.lit 1)]).2.run later := by
  have hrun : ((root .empty).run [.pop, .set "x" (.lit 1), .push, .set "x" (.lit 2), .pop, .push,
        .set "y" (.lit 3), .set "x" (.lit 4), .names, .find "x", .pop, .find "x", .find "y"]).1 =
      [.done, .done, .done, .done, .done, .done, .done, .done, .listed ["x", "y"],
        .found (some (.lit 4)), .done, .found (some (.lit 1)), .found none] := by cbv
  obtain ⟨hfind, _, hframe⟩ := lookups_follow_operations
  obtain ⟨value, hreply, hnewest, _⟩ := hfind [.pop, .set "x" (.lit 1), .push, .set "x" (.lit 2),
    .pop, .push, .set "y" (.lit 3), .set "x" (.lit 4), .names] "x" [.pop, .find "x", .find "y"]
  have hvalue : some (Reply.found (some (.lit 4))) = some (.found value) :=
    (congrArg (·[9]?) hrun).symm.trans hreply
  have hinner : Balanced [.set "y" (.lit 3)] := .set "y" (.lit 3) .nil
  have hbalanced : Balanced [.set "x" (.lit 2), .push, .set "y" (.lit 3), .pop] :=
    .set "x" (.lit 2) (.frame hinner .nil)
  exact ⟨hrun, (hnewest _).1 (Reply.found.inj (Option.some.inj hvalue)).symm, hbalanced,
    fun later => hframe [.set "x" (.lit 1)] _ later hbalanced⟩

end LambdaInt.Scope
