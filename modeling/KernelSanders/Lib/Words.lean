import Mathlib

namespace KernelSanders.Lib

open List

/-!
# Words of a list

The words of a list are its maximal runs of elements that are not separators.  `wordStarts` finds
where they start in one pass, as a program does that goes over a text once and remembers whether it
is inside a word.

* `map_wordStarts` — the words are the runs from these positions on;
* `wordStarts_concat` — what one more element adds;
* `getElem?_wordStarts` — the word number `k` starts where the count goes from `k` to `k + 1`.
-/

variable {α : Type} {sep : α → Bool} {b : Bool} {o : Nat} {l : List α}

/-- The words of a list. -/
def words (sep : α → Bool) (l : List α) : List (List α) :=
  (l.splitOnP sep).filter (fun w => !w.isEmpty)

/-- Whether a list ends inside a word, when it starts inside one or not. -/
def endsInWord (sep : α → Bool) : Bool → List α → Bool
  | b, [] => b
  | _, c :: cs => endsInWord sep (!sep c) cs

/-- Where the words start, if the list starts at the position `o`, inside a word or not. -/
def wordStarts (sep : α → Bool) : Bool → Nat → List α → List Nat
  | _, _, [] => []
  | b, o, c :: cs =>
    if sep c then wordStarts sep false (o + 1) cs
    else if b then wordStarts sep true (o + 1) cs
    else o :: wordStarts sep true (o + 1) cs

/-- The first part of a list that is split is what comes before the first separator. -/
theorem splitOnP_eq_takeWhile_cons (sep : α → Bool) (l : List α) :
    ∃ rest, l.splitOnP sep = l.takeWhile (fun c => !sep c) :: rest := by
  induction l with
  | nil => exact ⟨[], by simp⟩
  | cons c cs ih =>
    obtain ⟨rest, hrest⟩ := ih
    rw [splitOnP_cons_eq_if_modifyHead]
    split_ifs with hc
    · exact ⟨cs.splitOnP sep, by simp [hc]⟩
    · exact ⟨rest, by simp [hrest, hc]⟩

theorem le_of_mem_wordStarts {s : Nat} (h : s ∈ wordStarts sep b o l) : o ≤ s := by
  induction l generalizing b o with
  | nil => cases h
  | cons c cs ih =>
    rw [wordStarts] at h
    split_ifs at h
    · exact Nat.le_of_succ_le (ih h)
    · exact Nat.le_of_succ_le (ih h)
    · rcases mem_cons.mp h with rfl | h
      · exact le_rfl
      · exact Nat.le_of_succ_le (ih h)

/-- The run that starts at a position behind the first element. -/
theorem map_drop_cons {starts : List Nat} (c : α) (cs : List α) (h : ∀ s ∈ starts, o + 1 ≤ s) :
    starts.map (fun s => ((c :: cs).drop (s - o)).takeWhile (fun c => !sep c)) =
      starts.map (fun s => (cs.drop (s - (o + 1))).takeWhile (fun c => !sep c)) := by
  apply map_congr_left
  intro s hs
  have hle := h s hs
  rw [show s - o = s - (o + 1) + 1 by omega, drop_succ_cons]

/-- The words are the runs that start at these positions.  A list that starts inside a word has no
    word at its beginning. -/
theorem map_wordStarts (sep : α → Bool) (b : Bool) (o : Nat) (l : List α) :
    (wordStarts sep b o l).map (fun s => (l.drop (s - o)).takeWhile (fun c => !sep c)) =
      (if b then (l.splitOnP sep).tail else l.splitOnP sep).filter (fun w => !w.isEmpty) := by
  induction l generalizing b o with
  | nil => cases b <;> simp [wordStarts]
  | cons c cs ih =>
    rw [wordStarts, splitOnP_cons_eq_if_modifyHead]
    by_cases hc : sep c = true
    · rw [if_pos hc, if_pos hc, map_drop_cons c cs (fun s hs => le_of_mem_wordStarts hs), ih]
      cases b <;> simp
    · obtain ⟨rest, hrest⟩ := splitOnP_eq_takeWhile_cons sep cs
      have hrun := ih true (o + 1)
      rw [hrest] at hrun ⊢
      rw [if_neg hc, if_neg hc]
      cases b with
      | true =>
        rw [if_pos rfl, map_drop_cons c cs (fun s hs => le_of_mem_wordStarts hs), hrun]
        simp
      | false =>
        -- the first word starts here
        rw [if_neg Bool.false_ne_true, map_cons,
          map_drop_cons c cs (fun s hs => le_of_mem_wordStarts hs), hrun]
        simp [hc]

theorem words_eq_map :
    words sep l =
      (wordStarts sep false 0 l).map (fun s => (l.drop s).takeWhile (fun c => !sep c)) := by
  have h := map_wordStarts sep false 0 l
  simp only [Nat.sub_zero, Bool.false_eq_true, if_false] at h
  rw [h, words]

theorem length_words : (words sep l).length = (wordStarts sep false 0 l).length := by
  rw [words_eq_map, length_map]

/-- A word is a run between its start and a separator, or the end. -/
theorem exists_start {i : Nat} (h : i < (words sep l).length) :
    ∃ s rest, (wordStarts sep false 0 l)[i]? = some s ∧ l.drop s = (words sep l)[i] ++ rest ∧
      (words sep l)[i] ≠ [] ∧ (∀ c ∈ (words sep l)[i], sep c = false) ∧
      ∀ c, rest.head? = some c → sep c = true := by
  have hi : i < (wordStarts sep false 0 l).length := by rwa [← length_words]
  have hword : (words sep l)[i] = (l.drop (wordStarts sep false 0 l)[i]).takeWhile
      (fun c => !sep c) := by
    simp only [words_eq_map, getElem_map]
  have hnonempty : (words sep l)[i] ≠ [] := by
    have hmem : (words sep l)[i] ∈ words sep l := getElem_mem h
    simpa using (mem_filter.mp hmem).2
  refine ⟨(wordStarts sep false 0 l)[i], (l.drop (wordStarts sep false 0 l)[i]).dropWhile
    (fun c => !sep c), getElem?_eq_getElem hi, ?_, hnonempty, ?_, ?_⟩
  · rw [hword, takeWhile_append_dropWhile]
  · intro c hc
    rw [hword] at hc
    simpa using mem_takeWhile_imp hc
  · intro c hc
    have hhead := head?_dropWhile_not (fun c => !sep c) (l.drop (wordStarts sep false 0 l)[i])
    rw [hc] at hhead
    simpa using hhead

theorem endsInWord_concat (sep : α → Bool) (b : Bool) (l : List α) (c : α) :
    endsInWord sep b (l ++ [c]) = !sep c := by
  induction l generalizing b with
  | nil => rfl
  | cons d ds ih => exact ih _

/-- One more element at the end starts a word, or not. -/
theorem wordStarts_concat (c : α) :
    wordStarts sep b o (l ++ [c]) = wordStarts sep b o l ++
      if endsInWord sep b l = false ∧ sep c = false then [o + l.length] else [] := by
  induction l generalizing b o with
  | nil =>
    cases b <;> cases hc : sep c <;> simp [wordStarts, endsInWord, hc]
  | cons d ds ih =>
    have hlength : o + (d :: ds).length = o + 1 + ds.length := by
      rw [length_cons]
      omega
    rw [cons_append, wordStarts, wordStarts, endsInWord, hlength, ih, ih]
    cases hd : sep d <;> cases b <;> simp

/-- A word is counted from its first element on. -/
theorem getElem?_wordStarts {k i : Nat} :
    (wordStarts sep b o l)[k]? = some i ↔ ∃ n < l.length, i = o + n ∧
      (wordStarts sep b o (l.take n)).length = k ∧
      (wordStarts sep b o (l.take (n + 1))).length = k + 1 := by
  induction l generalizing b o k with
  | nil => simp [wordStarts]
  | cons c cs ih =>
    -- the first element, or one of the others
    have hsplit : ∀ P : Nat → Prop, (∃ n < (c :: cs).length, P n) ↔
        P 0 ∨ ∃ n < cs.length, P (n + 1) := by
      intro P
      constructor
      · rintro ⟨n, hn, hP⟩
        cases n with
        | zero => exact .inl hP
        | succ n => exact .inr ⟨n, by simpa using hn, hP⟩
      · rintro (hP | ⟨n, hn, hP⟩)
        · exact ⟨0, by simp, hP⟩
        · exact ⟨n + 1, by simpa using hn, hP⟩
    have hshift : ∀ n, o + 1 + n = o + (n + 1) := fun n => by omega
    rw [hsplit]
    cases hc : sep c with
    | true =>
      simp only [take_succ_cons, wordStarts, hc, if_true, ih, hshift, take_zero, length_nil]
      constructor
      · exact .inr
      · rintro (⟨-, hk, hk'⟩ | h)
        · omega
        · exact h
    | false =>
      cases b with
      | true =>
        simp only [take_succ_cons, wordStarts, hc, Bool.false_eq_true, if_false, if_true, ih,
          hshift, take_zero, length_nil]
        constructor
        · exact .inr
        · rintro (⟨-, hk, hk'⟩ | h)
          · omega
          · exact h
      | false =>
        simp only [take_succ_cons, wordStarts, hc, Bool.false_eq_true, if_false,
          take_zero, length_nil, length_cons, Nat.add_zero, Nat.zero_add]
        cases k with
        | zero =>
          simp only [getElem?_cons_zero, Option.some.injEq]
          constructor
          · rintro rfl
            exact .inl (by simp)
          · rintro (⟨rfl, -⟩ | ⟨n, -, -, hk, -⟩)
            · rfl
            · omega
        | succ k =>
          simp only [getElem?_cons_succ, ih, hshift, Nat.add_right_cancel_iff]
          constructor
          · exact .inr
          · rintro (⟨-, hk, -⟩ | h)
            · omega
            · exact h

end KernelSanders.Lib
