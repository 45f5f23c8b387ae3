import SqlReplay.Sql.Normalize

/-!
# The collapsing passes

`collapseInLists` and `collapseValuesLists` are one loop with different parameters: at a word, where
lists of placeholders follow it, both are replaced and the loop goes on behind the lists. A
`ListForm` is a set of such parameters, with what makes the loop local: lists end in a closing
parenthesis, and no letter stands in them.

Two facts follow for every form. The loop comes to a letter that the word does not have inside in
the same way whatever follows it (`collapse_append`), and over a text without the first letter of
the word it only copies (`collapse_copy`). So what happens at one place of a text can be told apart
from what happens before and after it.
-/

namespace SqlReplay

open Fingerprint

/-! ## Words -/

/-- A byte that may stand next to a word. -/
def isWordEdge (c : UInt8) : Bool := !isIdentByte c && c != backtick

theorem isPrefixOf_append_cons {word z : Bytes} {c : UInt8} (hc : c ∉ word.tail) (hz : z ≠ [])
    (l : Bytes) :
    word.isPrefixOf (z ++ c :: l) = true ↔ word <+: z := by
  rw [List.isPrefixOf_iff_prefix]
  refine ⟨fun h ↦ ?_, fun h ↦ h.trans (List.prefix_append z _)⟩
  rcases List.prefix_or_prefix_of_prefix h (List.prefix_append z (c :: l)) with h' | ⟨w, hw⟩
  · exact h'
  · obtain ⟨d, z, rfl⟩ := List.exists_cons_of_ne_nil hz
    subst hw
    match w with
    | [] => exact ⟨[], by rw [List.append_nil, List.append_nil]⟩
    | e :: w =>
      obtain ⟨s, hs⟩ := h
      rw [List.append_assoc] at hs
      obtain rfl : e = c := (List.cons.inj (List.append_cancel_left hs)).1
      exact absurd (by simp) hc

/-- Whether a word stands here is seen before the next letter that is not inside of it. -/
theorem wordAt_append {word z : Bytes} {c : UInt8} (hc : c ∉ word.tail) (hz : z ≠ [])
    (before : Option UInt8) (l : Bytes) :
    wordAt word before (z ++ c :: l) = wordAt word before (z ++ [c]) := by
  have hword (l : Bytes) : word.isPrefixOf (z ++ c :: l) = decide (word <+: z) :=
    Bool.eq_iff_iff.mpr ((isPrefixOf_append_cons hc hz l).trans (decide_eq_true_iff).symm)
  by_cases h : word <+: z
  · obtain ⟨z, rfl⟩ := h
    have hdrop (l : Bytes) :
        ((word ++ z ++ c :: l).drop word.length).head? = some (z.head?.getD c) := by
      rw [List.append_assoc, List.drop_left]
      cases z <;> rfl
    rw [wordAt, wordAt, hword, hword, hdrop, hdrop]
  · rw [wordAt, wordAt, hword, hword, decide_eq_false h, Bool.false_and, Bool.false_and,
      Bool.false_and]

/-- A word that stands before such a letter ends before it. -/
theorem isPrefix_of_wordAt {word z : Bytes} {c : UInt8} (hc : c ∉ word.tail) (hz : z ≠ [])
    {before : Option UInt8} {l : Bytes} (h : wordAt word before (z ++ c :: l) = true) :
    word <+: z := by
  rw [wordAt, Bool.and_eq_true, Bool.and_eq_true] at h
  exact (isPrefixOf_append_cons hc hz l).mp h.1.1

/-! ## Forms -/

/-- What a collapsing pass looks for, and what it writes instead. -/
structure ListForm where
  word : Bytes
  canon : Bytes
  /-- The text behind the lists it starts with, if it starts with one. -/
  tail : Bytes → Option Bytes
  canon_last : canon.getLast? = some (ch ')')
  tail_split : ∀ {b after}, tail b = some after → ∃ p, b = p ++ ch ')' :: after
  tail_append : ∀ {c}, isIdentByte c = true → ∀ z l,
    tail (z ++ c :: l) = (tail z).map (· ++ c :: l)

namespace ListForm

/-- The pass, behind the byte `before`. -/
def collapse (f : ListForm) (before : Option UInt8) : Bytes → Bytes
  | [] => []
  | c :: rest =>
    match _h : if wordAt f.word before (c :: rest) then f.tail (rest.drop (f.word.length - 1))
        else none with
    | some after => f.canon ++ f.collapse (some (ch ')')) after
    | none => c :: f.collapse (some c) rest
termination_by b => b.length
decreasing_by
  · split_ifs at _h
    obtain ⟨p, hp⟩ := f.tail_split _h
    have hlen := congrArg List.length hp
    rw [List.length_drop, List.length_append, List.length_cons] at hlen
    rw [List.length_cons]
    omega
  · exact Nat.lt_succ_self _

variable {f : ListForm} {before : Option UInt8} {c : UInt8} {rest after : Bytes}

theorem collapse_nil : f.collapse before [] = [] := by rw [collapse]

theorem collapse_lists (hword : wordAt f.word before (c :: rest) = true)
    (htail : f.tail (rest.drop (f.word.length - 1)) = some after) :
    f.collapse before (c :: rest) = f.canon ++ f.collapse (some (ch ')')) after := by
  rw [collapse]
  split
  · next heq =>
    rw [if_pos hword, htail] at heq
    rw [Option.some.inj heq]
  · next heq =>
    rw [if_pos hword, htail] at heq
    cases heq

theorem collapse_cons (h : wordAt f.word before (c :: rest) = true →
      f.tail (rest.drop (f.word.length - 1)) = none) :
    f.collapse before (c :: rest) = c :: f.collapse (some c) rest := by
  rw [collapse]
  split
  · next heq =>
    split_ifs at heq with hword
    rw [h hword] at heq
    cases heq
  · rfl

/-- **The way to a letter** does not depend on what follows it, and a text keeps its last byte. -/
theorem collapse_append (f : ListForm) {c : UInt8} (hident : isIdentByte c = true)
    (hc : c ∉ f.word.tail) (before : Option UInt8) (z : Bytes) :
    ∃ out, out.getLast? = z.getLast? ∧ ∀ l, f.collapse before (z ++ c :: l) =
      out ++ f.collapse (z.getLast?.or before) (c :: l) := by
  induction hn : z.length using Nat.strong_induction_on generalizing z before with
  | _ n ih =>
  subst hn
  match z with
  | [] => exact ⟨[], rfl, fun l ↦ rfl⟩
  | d :: z =>
    have hlast (e : UInt8) (after p : Bytes) (hp : d :: z = p ++ e :: after) :
        after.getLast?.or (some e) = (d :: z).getLast? := by
      rw [hp, List.getLast?_append_cons, List.getLast?_cons]
      cases after.getLast? <;> rfl
    have hsome : (d :: z).getLast?.or before = (d :: z).getLast? :=
      Option.or_of_isSome (by rw [List.getLast?_cons]; rfl)
    -- the same turn, whatever follows the letter
    by_cases hlists : ∃ after, wordAt f.word before (d :: z ++ [c]) = true ∧
        f.tail (z.drop (f.word.length - 1)) = some after
    · obtain ⟨after, hword, htail⟩ := hlists
      obtain ⟨p, hp⟩ := f.tail_split htail
      have hz : d :: z = d :: (z.take (f.word.length - 1) ++ p) ++ ch ')' :: after := by
        rw [List.cons_append, List.append_assoc, ← hp, List.take_append_drop]
      have hle : f.word.length ≤ z.length + 1 :=
        (isPrefix_of_wordAt hc (List.cons_ne_nil d z) hword).length_le
      have hlt : after.length < (d :: z).length := by
        have hlen := congrArg List.length hz
        simp only [List.length_append, List.length_cons] at hlen ⊢
        omega
      obtain ⟨out, hout, hrun⟩ := ih after.length hlt (some (ch ')')) after rfl
      refine ⟨f.canon ++ out, ?_, fun l ↦ ?_⟩
      · rw [List.getLast?_append, hout, f.canon_last, hlast _ after _ hz]
      · have hword' : wordAt f.word before (d :: (z ++ c :: l)) = true := by
          rw [← List.cons_append, wordAt_append hc (List.cons_ne_nil d z)]
          exact hword
        have htail' : f.tail ((z ++ c :: l).drop (f.word.length - 1)) =
            some (after ++ c :: l) := by
          rw [List.drop_append_of_le_length (by omega), f.tail_append hident, htail]
          rfl
        rw [List.cons_append, collapse_lists hword' htail', hrun, hlast _ after _ hz, hsome,
          List.append_assoc]
    · obtain ⟨out, hout, hrun⟩ := ih z.length (Nat.lt_succ_self _) (some d) z rfl
      refine ⟨d :: out, ?_, fun l ↦ ?_⟩
      · rw [← hlast d z [] rfl, ← hout, List.getLast?_cons]
        cases out.getLast? <;> rfl
      · rw [List.cons_append, collapse_cons, hrun, hlast d z [] rfl, hsome, List.cons_append]
        intro hword
        rw [← List.cons_append, wordAt_append hc (List.cons_ne_nil d z)] at hword
        have hle : f.word.length ≤ z.length + 1 :=
          (isPrefix_of_wordAt hc (List.cons_ne_nil d z) hword).length_le
        rw [List.drop_append_of_le_length (by omega), f.tail_append hident]
        cases htail : f.tail (z.drop (f.word.length - 1)) with
        | none => rfl
        | some after => exact absurd ⟨after, hword, htail⟩ hlists

/-- **Nothing happens without the word's first letter.** -/
theorem collapse_copy {a : UInt8} (ha : f.word.head? = some a) {m : Bytes} (hm : a ∉ m)
    (before : Option UInt8) (l : Bytes) :
    f.collapse before (m ++ l) = m ++ f.collapse (m.getLast?.or before) l := by
  induction m generalizing before with
  | nil => rfl
  | cons d m ih =>
    rw [List.mem_cons, not_or] at hm
    obtain ⟨had, hm⟩ := hm
    rw [List.cons_append, collapse_cons, ih hm, List.cons_append, List.getLast?_cons,
      Option.some_or]
    · congr 3
      cases m.getLast? <;> rfl
    · intro hword
      obtain ⟨w, hw⟩ := List.head?_eq_some_iff.mp ha
      rw [wordAt, hw, List.isPrefixOf_cons_cons, Bool.and_eq_true, Bool.and_eq_true,
        Bool.and_eq_true] at hword
      exact absurd (beq_iff_eq.mp hword.1.1.1) had

/-- **A pass that finds nothing** at a letter moves over what follows up to a parenthesis: it cannot
tell what stands there. -/
theorem collapse_over {a c : UInt8} (ha : f.word.head? = some a) (hclose : a ≠ ch ')')
    (hident : isIdentByte c = true) (hc : c ∉ f.word.tail) (z q : Bytes)
    (hstays : c ≠ a ∨ z.getLast?.all isWordEdge = false) :
    ∃ v w, v.getLast? = z.getLast? ∧ ∀ m, a ∉ m → f.collapse none (z ++ c :: (m ++ ch ')' :: q)) =
      v ++ c :: (m ++ ch ')' :: w) := by
  obtain ⟨v, hv, hrun⟩ := f.collapse_append hident hc none z
  refine ⟨v, f.collapse (some (ch ')')) q, hv, fun m hm ↦ ?_⟩
  rw [hrun, Option.or_none, collapse_cons]
  · have hm' : a ∉ m ++ [ch ')'] := by
      rw [List.mem_append, List.mem_singleton, not_or]
      exact ⟨hm, hclose⟩
    rw [← List.singleton_append (l := q), ← List.append_assoc, collapse_copy ha hm',
      List.getLast?_concat, Option.some_or, List.append_assoc]
    rfl
  · intro hword
    obtain ⟨w, hw⟩ := List.head?_eq_some_iff.mp ha
    rw [wordAt, Bool.and_eq_true, Bool.and_eq_true] at hword
    rcases hstays with hne | hedge
    · rw [hw, List.isPrefixOf_cons_cons, Bool.and_eq_true] at hword
      exact absurd (beq_iff_eq.mp hword.1.1.1).symm hne
    · exact absurd (hword.1.2.symm.trans hedge) (by decide)

end ListForm

/-! ## Groups -/

section Groups

variable {c : UInt8}

/-- No letter stands between two parentheses of a group. -/
theorem isIdentByte_ne {d : UInt8} (hc : isIdentByte c = true) (hd : isIdentByte d = false) :
    c ≠ d := by
  rintro rfl
  rw [hc] at hd
  cases hd

theorem placeholderGroupEnd_append (hc : isIdentByte c = true) (n : ℕ) (z l : Bytes) :
    placeholderGroupEnd n (z ++ c :: l) = (placeholderGroupEnd n z).map (· ++ c :: l) := by
  have hne (d : UInt8) (hd : isIdentByte d = false) : c ≠ d := isIdentByte_ne hc hd
  induction z generalizing n with
  | nil =>
    have hstop : placeholderGroupEnd n (c :: l) = none := by
      rw [placeholderGroupEnd, if_neg (hne (ch '?') (by decide)),
        if_neg (not_or_intro (hne (ch ',') (by decide)) (hne (ch ' ') (by decide))),
        if_neg fun h ↦ hne (ch ')') (by decide) h.1]
    rw [List.nil_append, hstop, placeholderGroupEnd]
    rfl
  | cons d z ih =>
    rw [List.cons_append, placeholderGroupEnd, placeholderGroupEnd, ih, ih]
    split_ifs <;> rfl

theorem placeholderGroupEnd_split {n : ℕ} {b after : Bytes}
    (h : placeholderGroupEnd n b = some after) : ∃ p, b = p ++ ch ')' :: after := by
  fun_induction placeholderGroupEnd n b with
  | case1 => cases h
  | case2 n rest ih =>
    obtain ⟨p, hp⟩ := ih h
    exact ⟨ch '?' :: p, congrArg (ch '?' :: ·) hp⟩
  | case3 n c rest _ _ ih =>
    obtain ⟨p, hp⟩ := ih h
    exact ⟨c :: p, congrArg (c :: ·) hp⟩
  | case4 n c rest _ _ hclose =>
    obtain rfl := Option.some.inj h
    exact ⟨[], by rw [hclose.1]; rfl⟩
  | case5 => cases h

theorem groupEnd_append (hc : isIdentByte c = true) (z l : Bytes) :
    groupEnd (z ++ c :: l) = (groupEnd z).map (· ++ c :: l) := by
  have hne (d : UInt8) (hd : isIdentByte d = false) : c ≠ d := isIdentByte_ne hc hd
  rw [groupEnd, groupEnd, dropWhile_stops (decide_eq_false (hne _ (by decide)))]
  cases z.dropWhile (· = ch ' ') with
  | nil =>
    rw [List.nil_append]
    dsimp only
    rw [if_neg (hne _ (by decide))]
    rfl
  | cons d z =>
    rw [List.cons_append]
    dsimp only
    rw [placeholderGroupEnd_append hc]
    split_ifs <;> rfl

theorem groupEnd_split {b after : Bytes} (h : groupEnd b = some after) :
    ∃ p, b = p ++ ch ')' :: after := by
  have hblank := (List.takeWhile_append_dropWhile (p := (· = ch ' ')) (l := b)).symm
  rw [groupEnd] at h
  split at h
  · cases h
  · next c rest heq =>
    split_ifs at h
    obtain ⟨p, rfl⟩ := placeholderGroupEnd_split h
    exact ⟨b.takeWhile (· = ch ' ') ++ c :: p, by rw [List.append_assoc]; rwa [heq] at hblank⟩

/-- `collapse_in_lists` as a form. -/
def inLists : ListForm where
  word := ascii "in"
  canon := ascii "in (?+)"
  canon_last := rfl
  tail := groupEnd
  tail_split := groupEnd_split
  tail_append := groupEnd_append

theorem collapseInFrom_eq (before : Option UInt8) (b : Bytes) :
    collapseInFrom before b = inLists.collapse before b := by
  fun_induction collapseInFrom before b with
  | case1 => rw [ListForm.collapse_nil]
  | case2 before c rest after h ih =>
    split_ifs at h with hword
    rw [ListForm.collapse_lists (f := inLists) hword h, ih]
    rfl
  | case3 before c rest h ih =>
    rw [ListForm.collapse_cons (f := inLists), ih]
    intro hword
    have hword' : wordAt (ascii "in") before (c :: rest) = true := hword
    rwa [dif_pos hword'] at h

/-! ## Rows -/

theorem skipComma_append (hc : isIdentByte c = true) (z l : Bytes) :
    skipComma (z ++ c :: l) = skipComma z ++ c :: l := by
  have hne (d : UInt8) (hd : isIdentByte d = false) : c ≠ d := isIdentByte_ne hc hd
  rw [skipComma, skipComma, dropWhile_stops (decide_eq_false (hne _ (by decide)))]
  cases z.dropWhile (· = ch ' ') with
  | nil => exact if_neg fun h ↦ hne _ (by decide) (Option.some.inj h)
  | cons d z =>
    rw [List.cons_append, List.head?_cons, List.head?_cons, List.tail_cons, List.tail_cons]
    split_ifs <;> rfl

theorem skipTuples_some {n : ℕ} {k after : Bytes}
    (h : groupEnd (if 0 < n then skipComma k else k) = some after) :
    skipTuples n k = skipTuples (n + 1) after := by
  rw [skipTuples]
  split
  · next heq => rw [Option.some.inj (h.symm.trans heq)]
  · next heq => cases h.symm.trans heq

theorem skipTuples_none {n : ℕ} {k : Bytes}
    (h : groupEnd (if 0 < n then skipComma k else k) = none) : skipTuples n k = (n, k) := by
  rw [skipTuples]
  split
  · next heq => cases h.symm.trans heq
  · rfl

theorem skipTuples_append (hc : isIdentByte c = true) (n : ℕ) (z l : Bytes) :
    skipTuples n (z ++ c :: l) = ((skipTuples n z).1, (skipTuples n z).2 ++ c :: l) := by
  have hnext (n : ℕ) (k : Bytes) :
      groupEnd (if 0 < n then skipComma (k ++ c :: l) else k ++ c :: l) =
        (groupEnd (if 0 < n then skipComma k else k)).map (· ++ c :: l) := by
    rw [skipComma_append hc]
    split_ifs
    · exact groupEnd_append hc _ l
    · exact groupEnd_append hc _ l
  fun_induction skipTuples n z with
  | case1 n k after h ih =>
    rw [dite_eq_ite] at h
    rw [skipTuples_some (by rw [hnext, h]; rfl), ih]
  | case2 n k h =>
    rw [dite_eq_ite] at h
    rw [skipTuples_none (by rw [hnext, h]; rfl)]

theorem skipComma_suffix (k : Bytes) : skipComma k <:+ k := by
  rw [skipComma]
  split_ifs
  · exact (List.tail_suffix _).trans (List.dropWhile_suffix _)
  · exact List.dropWhile_suffix _

theorem le_skipTuples (n : ℕ) (k : Bytes) : n ≤ (skipTuples n k).1 := by
  fun_induction skipTuples n k with
  | case1 n k after h ih => exact (Nat.le_succ n).trans ih
  | case2 => exact le_rfl

theorem skipTuples_split {n : ℕ} {k : Bytes} (h : n < (skipTuples n k).1) :
    ∃ p, k = p ++ ch ')' :: (skipTuples n k).2 := by
  fun_induction skipTuples n k with
  | case1 n k after hgroup ih =>
    rw [dite_eq_ite] at hgroup
    obtain ⟨p, hp⟩ := groupEnd_split hgroup
    have hsuffix : (if 0 < n then skipComma k else k) <:+ k := by
      split_ifs
      · exact skipComma_suffix k
      · exact List.suffix_refl k
    obtain ⟨q, hq⟩ := hsuffix
    rw [hp, ← List.append_assoc] at hq
    by_cases hmore : n + 1 < (skipTuples (n + 1) after).1
    · obtain ⟨p', hp'⟩ := ih hmore
      refine ⟨q ++ p ++ ch ')' :: p', ?_⟩
      rw [List.append_assoc, List.cons_append, ← hp', hq]
    · -- the last tuple: nothing behind it is taken
      have hstop : (skipTuples (n + 1) after).2 = after := by
        cases hnext : groupEnd (if 0 < n + 1 then skipComma after else after) with
        | none => rw [skipTuples_none hnext]
        | some after' =>
          have hle := le_skipTuples (n + 1 + 1) after'
          rw [skipTuples_some hnext] at hmore
          omega
      exact ⟨q ++ p, by rw [hstop, hq]⟩
  | case2 => exact absurd h (lt_irrefl _)

/-- `collapse_values_lists` as a form. -/
def valuesLists : ListForm where
  word := ascii "values"
  canon := ascii "values (?+)"
  canon_last := rfl
  tail k := if 0 < (skipTuples 0 k).1 then some (skipTuples 0 k).2 else none
  tail_split := by
    intro b after h
    split_ifs at h with hpos
    obtain rfl := Option.some.inj h
    exact skipTuples_split hpos
  tail_append := by
    intro c hc z l
    rw [skipTuples_append hc]
    split_ifs <;> rfl

theorem collapseValuesFrom_eq (before : Option UInt8) (b : Bytes) :
    collapseValuesFrom before b = valuesLists.collapse before b := by
  fun_induction collapseValuesFrom before b with
  | case1 => rw [ListForm.collapse_nil]
  | case2 before c rest h ih =>
    rw [ListForm.collapse_lists (f := valuesLists) h.1 (if_pos h.2), ih]
    rfl
  | case3 before c rest h ih =>
    rw [ListForm.collapse_cons (f := valuesLists), ih]
    exact fun hword ↦ if_neg fun hpos ↦ h ⟨hword, hpos⟩

end Groups

/-! ## Normalized lists -/

/-- A text of blanks. -/
def Spaces (s : Bytes) : Prop := ∀ c ∈ s, c = ch ' '

/-- A word may stand before blanks and an edge. -/
theorem Spaces.edge {s : Bytes} (hs : Spaces s) {c : UInt8} (hc : isWordEdge c = true) (t : Bytes) :
    (s ++ c :: t).head?.all isWordEdge = true := by
  match s with
  | [] => exact hc
  | d :: s =>
    have hd : isWordEdge (ch ' ') = true := by decide
    rwa [← hs d List.mem_cons_self] at hd

/-- What is left of a list of `n` literals: placeholders, commas and blanks. -/
structure GroupText (n : ℕ) (g : Bytes) : Prop where
  bytes : ∀ c ∈ g, c = ch '?' ∨ c = ch ',' ∨ c = ch ' '
  count : g.count (ch '?') = n
  pos : 0 < n

/-- What is left of `n` tuples of literals. -/
inductive RowText : ℕ → Bytes → Prop
  | one {k : ℕ} {g : Bytes} (hg : GroupText k g) : RowText 1 (ch '(' :: (g ++ [ch ')']))
  | cons {n k : ℕ} {g s s' r : Bytes} (hg : GroupText k g) (hs : Spaces s) (hs' : Spaces s')
    (hr : RowText n r) :
    RowText (n + 1) (ch '(' :: (g ++ ch ')' :: (s ++ ch ',' :: (s' ++ r))))

theorem placeholderGroupEnd_group {g : Bytes}
    (hg : ∀ c ∈ g, c = ch '?' ∨ c = ch ',' ∨ c = ch ' ') {n : ℕ}
    (hpos : 0 < n + g.count (ch '?')) (q : Bytes) :
    placeholderGroupEnd n (g ++ ch ')' :: q) = some q := by
  induction g generalizing n with
  | nil =>
    rw [List.nil_append, placeholderGroupEnd, if_neg (by decide), if_neg (by decide),
      if_pos ⟨rfl, by simpa using hpos⟩]
  | cons c g ih =>
    obtain ⟨hc, hg⟩ := List.forall_mem_cons.mp hg
    rw [List.cons_append, placeholderGroupEnd]
    by_cases hmark : c = ch '?'
    · rw [if_pos hmark]
      exact ih hg (by omega)
    · rw [if_neg hmark, if_pos (hc.resolve_left hmark)]
      rw [List.count_cons_of_ne hmark] at hpos
      exact ih hg hpos

theorem groupEnd_group {s g : Bytes} {n : ℕ} (hs : Spaces s) (hg : GroupText n g) (q : Bytes) :
    groupEnd (s ++ ch '(' :: (g ++ ch ')' :: q)) = some q := by
  have hdrop : (s ++ ch '(' :: (g ++ ch ')' :: q)).dropWhile (· = ch ' ') =
      ch '(' :: (g ++ ch ')' :: q) :=
    dropWhile_append_of (fun c hc ↦ decide_eq_true (hs c hc)) fun c hc ↦ by
      obtain rfl := Option.some.inj hc
      decide
  rw [groupEnd, hdrop]
  dsimp only
  rw [if_pos rfl, placeholderGroupEnd_group hg.bytes (by rw [hg.count, Nat.zero_add]; exact hg.pos)]

/-- The loop over the tuples takes all of them. -/
theorem skipTuples_rows {n : ℕ} {r : Bytes} (hr : RowText n r) {s : Bytes} (hs : Spaces s) {m : ℕ}
    {k q : Bytes} (hk : (if 0 < m then skipComma k else k) = s ++ (r ++ q)) :
    skipTuples m k = skipTuples (m + n) q := by
  induction hr generalizing m k s with
  | one hg =>
    rw [List.cons_append, List.append_assoc, List.singleton_append] at hk
    rw [skipTuples_some (by rw [hk]; exact groupEnd_group hs hg q)]
  | @cons n _ g s₁ s₂ r hg hs₁ hs₂ hr ih =>
    rw [List.cons_append, List.append_assoc, List.cons_append] at hk
    rw [skipTuples_some (by rw [hk]; exact groupEnd_group hs hg _),
      ih hs₂ (m := m + 1), Nat.add_assoc, Nat.add_comm 1]
    have hdrop : (s₁ ++ ch ',' :: (s₂ ++ r) ++ q).dropWhile (· = ch ' ') =
        ch ',' :: (s₂ ++ (r ++ q)) := by
      rw [List.append_assoc, List.cons_append, List.append_assoc]
      exact dropWhile_append_of (fun c hc ↦ decide_eq_true (hs₁ c hc)) fun c hc ↦ by
        obtain rfl := Option.some.inj hc
        decide
    rw [if_pos (Nat.succ_pos m), skipComma, hdrop]
    exact if_pos rfl

/-- Behind the first tuple their number does not matter. -/
theorem skipTuples_snd {m n : ℕ} (hm : 0 < m) (hn : 0 < n) (q : Bytes) :
    (skipTuples m q).2 = (skipTuples n q).2 := by
  induction hq : q.length using Nat.strong_induction_on generalizing m n q with
  | _ k ih =>
  subst hq
  cases hnext : groupEnd (skipComma q) with
  | none =>
    rw [skipTuples_none (by rwa [if_pos hm]), skipTuples_none (by rwa [if_pos hn])]
  | some after =>
    have hlt := (groupEnd_length hnext).trans_le (skipComma_length q)
    have hstep {n : ℕ} (hn : 0 < n) : skipTuples n q = skipTuples (n + 1) after :=
      skipTuples_some (by rwa [if_pos hn])
    rw [hstep hm, hstep hn]
    exact ih after.length hlt (Nat.succ_pos m) (Nat.succ_pos n) after rfl

/-- Placeholders, parentheses, commas and blanks are no letters. -/
theorem RowText.bytes {n : ℕ} {r : Bytes} (h : RowText n r) : ∀ c ∈ r, isIdentByte c = false := by
  have hgroup {k : ℕ} {g : Bytes} (hg : GroupText k g) : ∀ c ∈ g, isIdentByte c = false := by
    intro c hc
    rcases hg.bytes c hc with rfl | rfl | rfl
    all_goals decide
  have hspaces {s : Bytes} (hs : Spaces s) : ∀ c ∈ s, isIdentByte c = false := by
    intro c hc
    rw [hs c hc]
    decide
  induction h with
  | one hg =>
    simp only [List.forall_mem_cons, List.forall_mem_append]
    exact ⟨by decide, hgroup hg, by decide +kernel⟩
  | cons hg hs hs' _ ih =>
    simp only [List.forall_mem_cons, List.forall_mem_append]
    exact ⟨by decide, hgroup hg, by decide, hspaces hs, by decide, hspaces hs', ih⟩

theorem RowText.count {n : ℕ} {r : Bytes} (h : RowText n r) : r.count (ch ')') = n := by
  have hgroup {k : ℕ} {g : Bytes} (hg : GroupText k g) : g.count (ch ')') = 0 := by
    refine List.count_eq_zero.mpr fun hmem ↦ ?_
    rcases hg.bytes _ hmem with h | h | h
    all_goals exact absurd h (by decide)
  have hspaces {s : Bytes} (hs : Spaces s) : s.count (ch ')') = 0 :=
    List.count_eq_zero.mpr fun hmem ↦ absurd (hs _ hmem) (by decide)
  induction h with
  | one hg =>
    rw [List.count_cons_of_ne (by decide), List.count_append, hgroup hg, Nat.zero_add,
      List.count_singleton_self]
  | @cons n _ g s s' r hg hs hs' _ ih =>
    rw [List.count_cons_of_ne (by decide), List.count_append, hgroup hg, List.count_cons_self,
      List.count_append, hspaces hs, List.count_cons_of_ne (by decide), List.count_append,
      hspaces hs', ih]
    omega

theorem RowText.pos {n : ℕ} {r : Bytes} (h : RowText n r) : 0 < n := by
  induction h with
  | one => exact Nat.one_pos
  | cons => exact Nat.succ_pos _

theorem RowText.exists_first {n : ℕ} {r : Bytes} (h : RowText n r) : ∃ m, r = ch '(' :: m := by
  induction h with
  | one => exact ⟨_, rfl⟩
  | cons => exact ⟨_, rfl⟩

/-! ## Both passes -/

/-- The two passes, one after the other. -/
def collapseLists (b : Bytes) : Bytes := collapseValuesLists (collapseInLists b)

theorem collapseLists_eq (b : Bytes) :
    collapseLists b = valuesLists.collapse none (inLists.collapse none b) := by
  rw [collapseLists, collapseValuesLists, collapseInLists, collapseInFrom_eq,
    collapseValuesFrom_eq]

section Both

variable (z gap q : Bytes)

/-- A text that holds a list in parentheses behind `in`, up to the last parenthesis. -/
def inPart (gap g : Bytes) : Bytes := ch 'n' :: (gap ++ ch '(' :: g)

/-- The same of rows behind `values`. -/
def valuesPart (gap r : Bytes) : Bytes := ascii "alues" ++ (gap ++ r)

theorem not_mem_inPart {gap g : Bytes} {n : ℕ} (hgap : Spaces gap) (hg : GroupText n g) {a : UInt8}
    (ha : isIdentByte a = true) (hn : a ≠ ch 'n') : a ∉ inPart gap g := by
  have hne (d : UInt8) (hd : isIdentByte d = false) : a ≠ d := isIdentByte_ne ha hd
  rw [inPart, List.mem_cons, List.mem_append, List.mem_cons]
  rintro (h | h | h | h)
  · exact hn h
  · exact hne (ch ' ') (by decide) (hgap a h)
  · exact hne (ch '(') (by decide) h
  · rcases hg.bytes a h with h | h | h
    · exact hne (ch '?') (by decide) h
    · exact hne (ch ',') (by decide) h
    · exact hne (ch ' ') (by decide) h

/-- A list behind `in` collapses to one text. -/
theorem collapseLists_in (hgap : Spaces gap) (hedge : z.getLast?.all isWordEdge = true) :
    ∃ v, ∀ n g, GroupText n g →
      collapseLists (z ++ ch 'i' :: (inPart gap g ++ ch ')' :: q)) = v := by
  obtain ⟨v, -, hrun⟩ := inLists.collapse_append (c := ch 'i') (by decide) (by decide) none z
  refine ⟨valuesLists.collapse none (v ++ (inLists.canon ++ inLists.collapse (some (ch ')')) q)),
    fun n g hg ↦ ?_⟩
  have htail : inLists.tail ((inPart gap g ++ ch ')' :: q).drop 1) = some q := by
    have hdrop : (inPart gap g ++ ch ')' :: q).drop 1 = gap ++ ch '(' :: (g ++ ch ')' :: q) := by
      rw [inPart, List.cons_append, List.drop_one, List.tail_cons, List.append_assoc,
        List.cons_append]
    rw [hdrop]
    exact groupEnd_group hgap hg q
  have hword : wordAt inLists.word z.getLast? (ch 'i' :: (inPart gap g ++ ch ')' :: q)) = true := by
    have hnext : ((inPart gap g ++ ch ')' :: q).drop 1).head?.all isWordEdge = true := by
      rw [inPart, List.cons_append, List.drop_one, List.tail_cons, List.append_assoc]
      exact hgap.edge (by decide) _
    exact Bool.and_eq_true_iff.mpr ⟨Bool.and_eq_true_iff.mpr ⟨rfl, hedge⟩, hnext⟩
  rw [collapseLists_eq, hrun, Option.or_none, ListForm.collapse_lists hword htail]

/-- Behind a backtick it stays. -/
theorem collapseLists_in_kept (hedge : z.getLast?.all isWordEdge = false) :
    ∃ v w, ∀ gap n g, Spaces gap → GroupText n g →
      collapseLists (z ++ ch 'i' :: (inPart gap g ++ ch ')' :: q)) =
        v ++ ch 'i' :: (inPart gap g ++ ch ')' :: w) := by
  obtain ⟨v, w, -, hin⟩ := ListForm.collapse_over (f := inLists) (a := ch 'i') (c := ch 'i') rfl
    (by decide) (by decide) (by decide) z q (Or.inr hedge)
  obtain ⟨v', w', -, hvalues⟩ := ListForm.collapse_over (f := valuesLists) (a := ch 'v')
    (c := ch 'i') rfl (by decide) (by decide) (by decide) v w (Or.inl (by decide))
  refine ⟨v', w', fun gap n g hgap hg ↦ ?_⟩
  rw [collapseLists_eq, hin _ (not_mem_inPart hgap hg (by decide) (by decide)),
    hvalues _ (not_mem_inPart hgap hg (by decide) (by decide))]

theorem not_mem_valuesPart {gap r : Bytes} (hgap : Spaces gap)
    (hr : ∀ c ∈ r, isIdentByte c = false) {a : UInt8} (ha : isIdentByte a = true)
    (hletter : a ∉ ascii "alues") : a ∉ valuesPart gap r := by
  rw [valuesPart, List.mem_append, List.mem_append]
  rintro (h | h | h)
  · exact hletter h
  · exact isIdentByte_ne ha (by decide) (hgap a h)
  · exact isIdentByte_ne ha (hr a h) rfl

/-- Rows behind `values` collapse to one text, however many there are. -/
theorem collapseLists_values (hgap : Spaces gap) (hedge : z.getLast?.all isWordEdge = true) :
    ∃ v, ∀ n m, RowText n (m ++ [ch ')']) →
      collapseLists (z ++ ch 'v' :: (valuesPart gap m ++ ch ')' :: q)) = v := by
  obtain ⟨v, w, hv, hin⟩ := ListForm.collapse_over (f := inLists) (a := ch 'i') (c := ch 'v') rfl
    (by decide) (by decide) (by decide) z q (Or.inl (by decide))
  obtain ⟨v', -, hrun⟩ := valuesLists.collapse_append (c := ch 'v') (by decide) (by decide) none v
  refine ⟨v' ++ (valuesLists.canon ++ valuesLists.collapse (some (ch ')')) (skipTuples 1 w).2),
    fun n m hr ↦ ?_⟩
  have hbytes : ∀ c ∈ m, isIdentByte c = false := fun c hc ↦ hr.bytes c (List.mem_append_left _ hc)
  have hdrop : (valuesPart gap m ++ ch ')' :: w).drop 5 = gap ++ ((m ++ [ch ')']) ++ w) := by
    rw [valuesPart, List.append_assoc, List.append_assoc, List.append_assoc, List.singleton_append]
    rfl
  have htuples : skipTuples 0 (gap ++ ((m ++ [ch ')']) ++ w)) = skipTuples n w := by
    rw [skipTuples_rows hr hgap rfl, Nat.zero_add]
  have htail : valuesLists.tail ((valuesPart gap m ++ ch ')' :: w).drop 5) =
      some (skipTuples 1 w).2 := by
    have hpos : 0 < (skipTuples n w).1 := hr.pos.trans_le (le_skipTuples n w)
    rw [hdrop, skipTuples_snd Nat.one_pos hr.pos, ← htuples]
    exact if_pos (by rw [htuples]; exact hpos)
  have hword : wordAt valuesLists.word v.getLast?
      (ch 'v' :: (valuesPart gap m ++ ch ')' :: w)) = true := by
    have hnext : ((valuesPart gap m ++ ch ')' :: w).drop 5).head?.all isWordEdge = true := by
      obtain ⟨r, hr'⟩ := hr.exists_first
      rw [hdrop, hr']
      exact hgap.edge (by decide) _
    refine Bool.and_eq_true_iff.mpr ⟨Bool.and_eq_true_iff.mpr ⟨rfl, ?_⟩, hnext⟩
    rw [hv]
    exact hedge
  rw [collapseLists_eq, hin _ (not_mem_valuesPart hgap hbytes (by decide) (by decide)), hrun,
    Option.or_none, ListForm.collapse_lists hword htail]

/-- Behind a backtick they stay. -/
theorem collapseLists_values_kept (hedge : z.getLast?.all isWordEdge = false) :
    ∃ v w, ∀ gap m, Spaces gap → (∀ c ∈ m, isIdentByte c = false) →
      collapseLists (z ++ ch 'v' :: (valuesPart gap m ++ ch ')' :: q)) =
        v ++ ch 'v' :: (valuesPart gap m ++ ch ')' :: w) := by
  obtain ⟨v, w, hv, hin⟩ := ListForm.collapse_over (f := inLists) (a := ch 'i') (c := ch 'v') rfl
    (by decide) (by decide) (by decide) z q (Or.inl (by decide))
  obtain ⟨v', w', -, hvalues⟩ := ListForm.collapse_over (f := valuesLists) (a := ch 'v')
    (c := ch 'v') rfl (by decide) (by decide) (by decide) v w (Or.inr (by rw [hv]; exact hedge))
  refine ⟨v', w', fun gap m hgap hm ↦ ?_⟩
  rw [collapseLists_eq, hin _ (not_mem_valuesPart hgap hm (by decide) (by decide)),
    hvalues _ (not_mem_valuesPart hgap hm (by decide) (by decide))]

end Both

end SqlReplay
