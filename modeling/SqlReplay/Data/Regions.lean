import Mathlib.Data.List.TakeWhile
import Mathlib.Logic.Function.Basic
import Mathlib.Order.Basic
import SqlReplay.Data.Slice

/-!
# Regions of a file

A file with positioned reads and writes, and a writer that appends to several regions of it at once,
each behind a cursor of its own. The writer checks nothing: a region that gets more than was planned
for it runs into the next one. But a cursor never moves back, so a writer whose cursors all end
where their regions end has never left them, and then each region says what was appended to it, in
whatever order the appends to the regions came (`isSlice_appendAll`).
-/

namespace SqlReplay

variable {α : Type*}

/-! ## Positioned reads and writes -/

/-- `write_all_at`: a write behind the end fills the gap with zeros. -/
def writeAllAt [Inhabited α] (file d : List α) (pos : ℕ) : List α :=
  file.take pos ++ List.replicate (pos - file.length) default ++ d ++ file.drop (pos + d.length)

/-- `read_exact_at`, which fails behind the end. -/
def readExactAt (file : List α) (len pos : ℕ) : Option (List α) :=
  if pos + len ≤ file.length then some ((file.drop pos).take len) else none

namespace IsSlice

variable {S d e : List α} {o p : ℕ}

theorem append (hd : IsSlice S o d) (he : IsSlice S (o + d.length) e) :
    IsSlice S o (d ++ e) := by
  obtain ⟨before, after, rfl, rfl⟩ := hd
  obtain ⟨before', after', heq, hlen⟩ := he
  rw [← List.length_append] at hlen
  obtain ⟨rfl, rfl⟩ := List.append_inj (heq.trans (List.append_assoc _ _ _)) hlen.symm
  exact ⟨before, after', by simp only [List.append_assoc], rfl⟩

theorem append_left (h : IsSlice S o (d ++ e)) : IsSlice S o d := by
  obtain ⟨before, after, rfl, rfl⟩ := h
  exact ⟨before, e ++ after, by simp only [List.append_assoc], rfl⟩

theorem append_right (h : IsSlice S o (d ++ e)) : IsSlice S (o + d.length) e := by
  obtain ⟨before, after, rfl, rfl⟩ := h
  exact ⟨before ++ d, after, by simp only [List.append_assoc], List.length_append⟩

theorem nil (h : o ≤ S.length) : IsSlice S o [] :=
  ⟨S.take o, S.drop o, by rw [List.append_nil, List.take_append_drop], List.length_take_of_le h⟩

theorem take_drop (h : IsSlice S o d) : (S.drop o).take d.length = d := by
  obtain ⟨before, after, rfl, rfl⟩ := h
  rw [List.append_assoc, List.drop_left, List.take_left]

theorem readExactAt (h : IsSlice S o d) : readExactAt S d.length o = some d := by
  rw [SqlReplay.readExactAt, if_pos h.end_le, h.take_drop]

/-- A stretch is what the positions inside it say. -/
theorem of_getElem? (hend : o + d.length ≤ S.length)
    (h : ∀ i < d.length, S[o + i]? = d[i]?) : IsSlice S o d := by
  have htake : (S.drop o).take d.length = d := by
    apply List.ext_getElem?
    intro i
    rw [List.getElem?_take]
    split_ifs with hi
    · rw [List.getElem?_drop, h i hi]
    · rw [List.getElem?_eq_none (not_lt.mp hi)]
  rw [← htake]
  exact of_take_drop ((Nat.le_add_right _ _).trans hend)

theorem getElem? (h : IsSlice S o d) {i : ℕ} (hi : i < d.length) : S[o + i]? = d[i]? := by
  conv_rhs => rw [← h.take_drop, List.getElem?_take, if_pos hi, List.getElem?_drop]

end IsSlice

section Write

variable [Inhabited α] {file d e : List α} {pos o : ℕ}

/-- A write says what was written. -/
theorem isSlice_writeAllAt (file d : List α) (pos : ℕ) : IsSlice (writeAllAt file d pos) pos d := by
  refine ⟨_, _, rfl, ?_⟩
  rw [List.length_append, List.length_take, List.length_replicate]
  omega

theorem length_writeAllAt (file d : List α) (pos : ℕ) :
    (writeAllAt file d pos).length = max file.length (pos + d.length) := by
  simp only [writeAllAt, List.length_append, List.length_take, List.length_replicate,
    List.length_drop]
  omega

/-- A write changes nothing outside the positions it writes to. -/
theorem getElem?_writeAllAt {i : ℕ} (hi : i < file.length) (hout : i < pos ∨ pos + d.length ≤ i) :
    (writeAllAt file d pos)[i]? = file[i]? := by
  have hlen : (file.take pos ++ List.replicate (pos - file.length) default).length = pos := by
    rw [List.length_append, List.length_take, List.length_replicate]
    omega
  rw [writeAllAt]
  rcases hout with hlt | hle
  · have htake : i < (file.take pos).length := List.length_take ▸ lt_min hlt hi
    rw [List.append_assoc, List.append_assoc, List.getElem?_append_left htake, List.getElem?_take,
      if_pos hlt]
  · rw [List.getElem?_append_right, List.getElem?_drop, List.length_append, hlen,
      Nat.add_sub_cancel' hle]
    rwa [List.length_append, hlen]

theorem IsSlice.writeAllAt (h : IsSlice file o e) (hout : o + e.length ≤ pos ∨ pos + d.length ≤ o) :
    IsSlice (writeAllAt file d pos) o e := by
  have hend := h.end_le
  apply IsSlice.of_getElem?
  · rw [length_writeAllAt]
    exact hend.trans (le_max_left _ _)
  · intro i hi
    rw [getElem?_writeAllAt (by omega) (by omega), h.getElem? hi]

end Write

/-! ## Appending to several regions -/

section Regions

variable {κ : Type*} [DecidableEq κ]

/-- A file, and where the next append to each region goes. -/
structure Cursors (κ α : Type*) where
  file : List α
  cursor : κ → ℕ

/-- What is appended to a region, of all that is appended. -/
def appended (ws : List (κ × List α)) (k : κ) : List α := (ws.filter (·.1 = k)).flatMap Prod.snd

@[simp]
theorem appended_nil (k : κ) : appended ([] : List (κ × List α)) k = [] := rfl

theorem appended_cons_self (k : κ) (d : List α) (ws : List (κ × List α)) :
    appended ((k, d) :: ws) k = d ++ appended ws k := by
  simp only [appended, List.filter_cons, decide_true, if_true, List.flatMap_cons]

theorem appended_cons_of_ne {k j : κ} (h : j ≠ k) (d : List α) (ws : List (κ × List α)) :
    appended ((j, d) :: ws) k = appended ws k := by
  rw [appended, List.filter_cons_of_neg, appended]
  exact fun heq ↦ h (of_decide_eq_true heq)

theorem appended_map {ε : Type*} (key : ε → κ) (f : ε → List α) (es : List ε) (k : κ) :
    appended (es.map fun e ↦ (key e, f e)) k = (es.filter (key · = k)).flatMap f := by
  rw [appended, List.filter_map, List.flatMap_map]
  rfl

namespace Cursors

/-- Appends to a region. -/
def append [Inhabited α] (c : Cursors κ α) (w : κ × List α) : Cursors κ α :=
  ⟨writeAllAt c.file w.2 (c.cursor w.1), Function.update c.cursor w.1 (c.cursor w.1 + w.2.length)⟩

def appendAll [Inhabited α] (c : Cursors κ α) (ws : List (κ × List α)) : Cursors κ α :=
  ws.foldl append c

variable [Inhabited α]

@[simp]
theorem cursor_append_self (c : Cursors κ α) (k : κ) (d : List α) :
    (c.append (k, d)).cursor k = c.cursor k + d.length :=
  Function.update_self _ _ _

theorem cursor_append_of_ne (c : Cursors κ α) {j k : κ} (h : k ≠ j) (d : List α) :
    (c.append (j, d)).cursor k = c.cursor k :=
  Function.update_of_ne h _ _

/-- A cursor moves by what is appended to its region. -/
theorem cursor_appendAll (c : Cursors κ α) (ws : List (κ × List α)) (k : κ) :
    (c.appendAll ws).cursor k = c.cursor k + (appended ws k).length := by
  induction ws generalizing c with
  | nil => rfl
  | cons w ws ih =>
    obtain ⟨j, d⟩ := w
    refine (ih (c.append (j, d))).trans ?_
    by_cases h : j = k
    · rw [h, appended_cons_self, List.length_append, cursor_append_self, Nat.add_assoc]
    · rw [appended_cons_of_ne h, cursor_append_of_ne c (Ne.symm h)]

/-- The regions of some keys, and what each one has been given so far. -/
structure Fills (c : Cursors κ α) (keys : List κ) (start stop : κ → ℕ) (filled : κ → List α) :
    Prop where
  disjoint : ∀ k ∈ keys, ∀ j ∈ keys, k ≠ j → stop k ≤ start j ∨ stop j ≤ start k
  cursor_eq : ∀ k ∈ keys, c.cursor k = start k + (filled k).length
  isSlice : ∀ k ∈ keys, IsSlice c.file (start k) (filled k)

variable {c : Cursors κ α} {keys : List κ} {start stop : κ → ℕ} {filled : κ → List α}

/-- An append that stays inside its region extends what the region says, and leaves the others
alone as long as these have not been left either. -/
theorem Fills.append (h : c.Fills keys start stop filled) {k : κ} (hk : k ∈ keys) {d : List α}
    (hstop : ∀ j ∈ keys, c.cursor j ≤ stop j) (hfits : c.cursor k + d.length ≤ stop k) :
    (c.append (k, d)).Fills keys start stop (Function.update filled k (filled k ++ d)) := by
  refine ⟨h.disjoint, fun j hj ↦ ?_, fun j hj ↦ ?_⟩
  · by_cases hjk : j = k
    · subst hjk
      rw [cursor_append_self, Function.update_self, List.length_append, h.cursor_eq j hj,
        Nat.add_assoc]
    · rw [cursor_append_of_ne c hjk, Function.update_of_ne hjk, h.cursor_eq j hj]
  · have hcursor := h.cursor_eq j hj
    have hcursor' := h.cursor_eq k hk
    have hjstop := hstop j hj
    by_cases hjk : j = k
    · subst hjk
      rw [Function.update_self]
      apply IsSlice.append
      · apply (h.isSlice j hj).writeAllAt
        exact Or.inl hcursor.ge
      · rw [← hcursor]
        exact isSlice_writeAllAt _ _ _
    · rw [Function.update_of_ne hjk]
      apply (h.isSlice j hj).writeAllAt
      rcases h.disjoint j hj k hk hjk with hle | hle
      · left
        change start j + (filled j).length ≤ c.cursor k
        omega
      · right
        change c.cursor k + d.length ≤ start j
        omega

/-- When every region ends up exactly as long as planned, each one says what was appended to it. -/
theorem Fills.appendAll (ws : List (κ × List α)) (h : c.Fills keys start stop filled)
    (hkeys : ∀ w ∈ ws, w.1 ∈ keys)
    (hstop : ∀ k ∈ keys, (c.appendAll ws).cursor k = stop k) :
    (c.appendAll ws).Fills keys start stop fun k ↦ filled k ++ appended ws k := by
  induction ws generalizing c filled with
  | nil =>
    simp only [appended_nil, List.append_nil]
    exact h
  | cons w ws ih =>
    obtain ⟨k, d⟩ := w
    have hk := hkeys _ List.mem_cons_self
    have hplan (j : κ) (hj : j ∈ keys) : c.cursor j + (appended ((k, d) :: ws) j).length = stop j :=
      (cursor_appendAll c _ j).symm.trans (hstop j hj)
    have hfits : c.cursor k + d.length ≤ stop k := by
      have := hplan k hk
      rw [appended_cons_self, List.length_append] at this
      omega
    have hstep := h.append hk (fun j hj ↦ (Nat.le_add_right _ _).trans (hplan j hj).le) hfits
    have hrun := ih hstep (fun w hw ↦ hkeys w (List.mem_cons_of_mem _ hw)) hstop
    refine ⟨hrun.disjoint, fun j hj ↦ ?_, fun j hj ↦ ?_⟩
    all_goals
      have hfilled : Function.update filled k (filled k ++ d) j ++ appended ws j =
          filled j ++ appended ((k, d) :: ws) j := by
        by_cases hjk : j = k
        · rw [hjk, Function.update_self, appended_cons_self, List.append_assoc]
        · rw [Function.update_of_ne hjk, appended_cons_of_ne (Ne.symm hjk)]
    · rw [← hfilled]
      exact hrun.cursor_eq j hj
    · rw [← hfilled]
      exact hrun.isSlice j hj

end Cursors

end Regions

end SqlReplay
