import Mathlib.Data.List.TakeWhile

/-! The words of a text: its longest runs of characters that are no separators. -/

namespace Words

variable {α : Type*} {p p' : α → Bool} {c : α} {l w : List α}

def words (p : α → Bool) (l : List α) : List (List α) := (l.splitOnP p).filter (!·.isEmpty)

@[simp] theorem words_nil : words p [] = [] := by simp [words, List.splitOnP_nil]

theorem words_append_sep (hc : p c = true) (x y : List α) :
    words p (x ++ c :: y) = words p x ++ words p y := by
  rw [words, List.splitOnP_append_cons x y hc, List.filter_append]
  rfl

theorem words_cons_sep (hc : p c = true) (l : List α) : words p (c :: l) = words p l := by
  have h := words_append_sep hc [] l
  rwa [words_nil, List.nil_append, List.nil_append] at h

theorem words_of_no_sep (hne : w ≠ []) (hw : ∀ c ∈ w, p c = false) : words p w = [w] := by
  rw [words, List.splitOnP_eq_singleton hw]
  simp [hne]

theorem words_dropWhile (l : List α) : words p (l.dropWhile p) = words p l := by
  induction l with
  | nil => rfl
  | cons c l ih =>
    by_cases hc : p c = true
    · rw [List.dropWhile_cons_of_pos hc, words_cons_sep hc, ih]
    · rw [List.dropWhile_cons_of_neg hc]

theorem words_append_of_ends (hne : w ≠ []) (hw : ∀ c ∈ w, p c = false) {rest : List α}
    (hrest : ∀ c ∈ rest.head?, p c = true) : words p (w ++ rest) = w :: words p rest := by
  cases rest with
  | nil => rw [List.append_nil, words_of_no_sep hne hw, words_nil]
  | cons c rest =>
    have hc : p c = true := hrest c rfl
    rw [words_append_sep hc, words_of_no_sep hne hw, words_cons_sep hc, List.singleton_append]

theorem head_dropWhile_not (l : List α) :
    ∀ c ∈ (l.dropWhile (!p ·)).head?, p c = true := by
  intro c hc
  have h := List.head?_dropWhile_not (!p ·) l
  rw [Option.mem_def.mp hc] at h
  simpa using h

/-- A scan that skips separators and takes the characters up to the next one
takes up the first word. -/
theorem words_scan (h : (l.dropWhile p).takeWhile (!p ·) ≠ []) :
    words p l = (l.dropWhile p).takeWhile (!p ·) :: words p ((l.dropWhile p).dropWhile (!p ·)) := by
  have hw : ∀ c ∈ (l.dropWhile p).takeWhile (!p ·), p c = false := by
    intro c hc
    simpa using List.mem_takeWhile_imp hc
  rw [← words_dropWhile l, ← words_append_of_ends h hw (head_dropWhile_not _),
    List.takeWhile_append_dropWhile]

theorem words_scan_empty (h : (l.dropWhile p).takeWhile (!p ·) = []) : words p l = [] := by
  rw [← words_dropWhile l]
  cases hl : l.dropWhile p with
  | nil => exact words_nil
  | cons c r =>
    have hc : p c = false := by simpa [hl] using List.head?_dropWhile_not p l
    rw [hl, List.takeWhile_cons_of_pos (by simp [hc])] at h
    cases h

theorem length_scan_lt (h : (l.dropWhile p).takeWhile (!p ·) ≠ []) :
    ((l.dropWhile p).dropWhile (!p ·)).length < l.length := by
  have hlen := congrArg List.length (List.takeWhile_append_dropWhile (p := (!p ·)) (l := l.dropWhile p))
  have hpos := List.length_pos_iff.mpr h
  have hle := (List.dropWhile_sublist (l := l) p).length_le
  rw [List.length_append] at hlen
  omega

theorem mem_words (hw : w ∈ words p l) : w ≠ [] ∧ ∀ c ∈ w, p c = false := by
  induction hn : l.length using Nat.strong_induction_on generalizing l with
  | _ n ih =>
    by_cases h : (l.dropWhile p).takeWhile (!p ·) = []
    · rw [words_scan_empty h] at hw
      cases hw
    · rw [words_scan h, List.mem_cons] at hw
      rcases hw with rfl | hw
      · exact ⟨h, fun c hc => by simpa using List.mem_takeWhile_imp hc⟩
      · exact ih _ (hn ▸ length_scan_lt h) hw rfl

theorem words_congr (h : ∀ c ∈ l, p c = p' c) : words p l = words p' l := by
  have hsplit : l.splitOnP p = l.splitOnP p' := by
    induction l with
    | nil => rw [List.splitOnP_nil, List.splitOnP_nil]
    | cons c l ih =>
      rw [List.splitOnP_cons_eq_if_modifyHead, List.splitOnP_cons_eq_if_modifyHead,
        h c List.mem_cons_self, ih fun d hd => h d (List.mem_cons_of_mem _ hd)]
  rw [words, hsplit, words]

end Words
