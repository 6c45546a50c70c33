import Mathlib.Data.List.Basic
import Mathlib.Data.List.Infix
import Mathlib.Data.List.TakeWhile
import Mathlib.Data.Nat.Find

/-! Regular expressions of literals and repeated character classes, matched with
backtracking in the order of priority. -/

namespace Regex

inductive Order
  | greedy
  | lazy

inductive Item
  | lit (l : List Char)
  | plus (p : Char → Bool) (order : Order) (capture : Bool)

def lengths : Order → ℕ → List ℕ
  | .greedy, n => ((List.range n).map (· + 1)).reverse
  | .lazy, n => (List.range n).map (· + 1)

/-- The captured texts of the first match at the start of `s`. -/
def matchAt : List Item → List Char → Option (List (List Char))
  | [], _ => some []
  | .lit l :: is, s => if l.isPrefixOf s then matchAt is (s.drop l.length) else none
  | .plus p order capture :: is, s => (lengths order (s.takeWhile p).length).findSome? fun k =>
      (matchAt is (s.drop k)).map fun caps => if capture then s.take k :: caps else caps

def search (is : List Item) (s : List Char) : Option (List (List Char)) :=
  (List.range (s.length + 1)).findSome? fun i => matchAt is (s.drop i)

section

variable {p : Char → Bool} {capture : Bool} {is : List Item} {s : List Char}

theorem matchAt_lit (l s : List Char) (is : List Item) :
    matchAt (.lit l :: is) (l ++ s) = matchAt is s := by
  simp [matchAt]

theorem matchAt_lit_of_not {l : List Char} (h : ¬ l <+: s) : matchAt (.lit l :: is) s = none := by
  rw [matchAt, if_neg]
  simpa using h

theorem mem_lengths {order : Order} {n k : ℕ} : k ∈ lengths order n ↔ 0 < k ∧ k ≤ n := by
  have hmem : k ∈ (List.range n).map (· + 1) ↔ 0 < k ∧ k ≤ n := by
    simp only [List.mem_map, List.mem_range]
    constructor
    · rintro ⟨i, hi, rfl⟩
      omega
    · rintro ⟨hpos, hle⟩
      exact ⟨k - 1, by omega, by omega⟩
  cases order with
  | greedy => rw [lengths, List.mem_reverse, hmem]
  | lazy => exact hmem

theorem matchAt_plus_none {order : Order}
    (h : ∀ k, 0 < k → k ≤ (s.takeWhile p).length → matchAt is (s.drop k) = none) :
    matchAt (.plus p order capture :: is) s = none := by
  rw [matchAt, List.findSome?_eq_none_iff]
  intro k hk
  obtain ⟨hpos, hle⟩ := mem_lengths.mp hk
  rw [h k hpos hle, Option.map_none]

theorem matchAt_plus_eq_none_iff {order : Order} :
    matchAt (.plus p order capture :: is) s = none ↔
      ∀ k, 0 < k → k ≤ (s.takeWhile p).length → matchAt is (s.drop k) = none := by
  refine ⟨fun h k hk hle => ?_, matchAt_plus_none⟩
  rw [matchAt, List.findSome?_eq_none_iff] at h
  exact Option.map_eq_none_iff.mp (h k (mem_lengths.mpr ⟨hk, hle⟩))

theorem findSome?_greedy {α : Type} {f : ℕ → Option α} {n k : ℕ} {a : α} (hk : 0 < k) (hkn : k ≤ n)
    (hf : f k = some a) (hnone : ∀ j, k < j → j ≤ n → f j = none) :
    (lengths .greedy n).findSome? f = some a := by
  induction n with
  | zero => omega
  | succ n ih =>
    have hcons : lengths .greedy (n + 1) = (n + 1) :: lengths .greedy n := by
      simp [lengths, List.range_succ]
    rw [hcons, List.findSome?_cons]
    by_cases hlast : k = n + 1
    · rw [← hlast, hf]
    · rw [hnone (n + 1) (by omega) le_rfl]
      exact ih (by omega) fun j hj hjn => hnone j hj (by omega)

theorem findSome?_lazy {α : Type} {f : ℕ → Option α} {n k : ℕ} {a : α} (hk : 0 < k) (hkn : k ≤ n)
    (hf : f k = some a) (hnone : ∀ j, 0 < j → j < k → f j = none) :
    (lengths .lazy n).findSome? f = some a := by
  induction n with
  | zero => omega
  | succ n ih =>
    have hsnoc : lengths .lazy (n + 1) = lengths .lazy n ++ [n + 1] := by
      simp [lengths, List.range_succ]
    rw [hsnoc, List.findSome?_append]
    by_cases hlast : k = n + 1
    · have hpre : (lengths .lazy n).findSome? f = none := by
        rw [List.findSome?_eq_none_iff]
        intro j hj
        obtain ⟨hpos, hle⟩ := mem_lengths.mp hj
        exact hnone j hpos (by omega)
      rw [hpre, ← hlast, Option.none_or, List.findSome?_singleton, hf]
    · rw [ih (by omega), Option.some_or]

theorem matchAt_greedy_longest {k : ℕ} {caps : List (List Char)} (hk : 0 < k)
    (hrun : k ≤ (s.takeWhile p).length) (h : matchAt is (s.drop k) = some caps)
    (hnone : ∀ j, k < j → j ≤ (s.takeWhile p).length → matchAt is (s.drop j) = none) :
    matchAt (.plus p .greedy capture :: is) s =
      some (if capture then s.take k :: caps else caps) := by
  rw [matchAt]
  refine findSome?_greedy hk hrun (by rw [h, Option.map_some]) fun j hj hjn => ?_
  rw [hnone j hj hjn, Option.map_none]

theorem matchAt_lazy_shortest {k : ℕ} {caps : List (List Char)} (hk : 0 < k)
    (hrun : k ≤ (s.takeWhile p).length) (h : matchAt is (s.drop k) = some caps)
    (hnone : ∀ j, 0 < j → j < k → matchAt is (s.drop j) = none) :
    matchAt (.plus p .lazy capture :: is) s =
      some (if capture then s.take k :: caps else caps) := by
  rw [matchAt]
  refine findSome?_lazy hk hrun (by rw [h, Option.map_some]) fun j hj hjn => ?_
  rw [hnone j hj hjn, Option.map_none]

/-- What follows cannot start inside a run of the class. -/
def Rejects (p : Char → Bool) (is : List Item) : Prop :=
  ∀ c s, p c = true → matchAt is (c :: s) = none

theorem rejects_lit {c : Char} (hc : p c = false) (l : List Char) (is : List Item) :
    Rejects p (.lit (c :: l) :: is) := by
  intro d s hd
  refine matchAt_lit_of_not fun h => ?_
  have heq : c = d := (List.cons_prefix_cons.mp h).1
  rw [heq, hd] at hc
  cases hc

theorem matchAt_plus_head {c : Char} (hc : p c = false) {order : Order} (s : List Char) :
    matchAt (.plus p order capture :: is) (c :: s) = none := by
  refine matchAt_plus_none fun k hk hle => ?_
  rw [List.takeWhile_cons_of_neg (by simp [hc])] at hle
  simp at hle
  omega

theorem rejects_plus {r : Char → Bool} (hdis : ∀ c, p c = true → r c = false) (order : Order)
    (capture : Bool) (is : List Item) : Rejects p (.plus r order capture :: is) :=
  fun _ s hd => matchAt_plus_head (hdis _ hd) s

theorem drop_length_takeWhile (p : Char → Bool) (s : List Char) :
    s.drop (s.takeWhile p).length = s.dropWhile p :=
  calc s.drop (s.takeWhile p).length
      = (s.takeWhile p ++ s.dropWhile p).drop (s.takeWhile p).length := by
        rw [List.takeWhile_append_dropWhile]
    _ = s.dropWhile p := List.drop_left

theorem matchAt_greedy (hrej : Rejects p is) (s : List Char) :
    matchAt (.plus p .greedy capture :: is) s =
      if s.takeWhile p = [] then none
      else (matchAt is (s.dropWhile p)).map fun caps =>
        if capture then s.takeWhile p :: caps else caps := by
  have hshort : ∀ k, k < (s.takeWhile p).length → matchAt is (s.drop k) = none := by
    intro k hk
    have hks : k < s.length := hk.trans_le (List.takeWhile_prefix p).length_le
    rw [List.drop_eq_getElem_cons hks]
    refine hrej _ _ ?_
    have hmem : (s.takeWhile p)[k] ∈ s.takeWhile p := List.getElem_mem hk
    rw [(List.takeWhile_prefix p).getElem hk] at hmem
    exact List.mem_takeWhile_imp hmem
  split
  · next hnil =>
    refine matchAt_plus_none fun k hk hle => ?_
    rw [hnil] at hle
    simp at hle
    omega
  · next hne =>
    have hpos := List.length_pos_iff.mpr hne
    have htake : s.take (s.takeWhile p).length = s.takeWhile p :=
      (List.prefix_iff_eq_take.mp (List.takeWhile_prefix p)).symm
    cases hrest : matchAt is (s.dropWhile p) with
    | none =>
      refine matchAt_plus_none fun k hk hle => ?_
      rcases hle.lt_or_eq with hlt | heq
      · exact hshort k hlt
      · rw [heq, drop_length_takeWhile, hrest]
    | some caps =>
      rw [matchAt_greedy_longest hpos le_rfl (by rw [drop_length_takeWhile, hrest])
        (fun j hj hjn => by omega), htake, Option.map_some]

theorem matchAt_greedy_append (hrej : Rejects p is) {w : List Char} (hne : w ≠ [])
    (hw : ∀ c ∈ w, p c = true) (hs : ∀ c ∈ s.head?, p c = false) :
    matchAt (.plus p .greedy capture :: is) (w ++ s) =
      (matchAt is s).map fun caps => if capture then w :: caps else caps := by
  have hstop : s.takeWhile p = [] ∧ s.dropWhile p = s := by
    cases s with
    | nil => exact ⟨rfl, rfl⟩
    | cons d s =>
      have hd := hs d rfl
      rw [List.takeWhile_cons_of_neg (by simp [hd]), List.dropWhile_cons_of_neg (by simp [hd])]
      exact ⟨rfl, rfl⟩
  rw [matchAt_greedy hrej, List.takeWhile_append_of_pos hw, List.dropWhile_append_of_pos hw,
    hstop.1, hstop.2, List.append_nil, if_neg hne]

/-- The classes of the captured texts. -/
def classes : List Item → List (Char → Bool)
  | [] => []
  | .lit _ :: is => classes is
  | .plus p _ capture :: is => if capture then p :: classes is else classes is

theorem matchAt_captures {is : List Item} {s : List Char} {caps : List (List Char)}
    (h : matchAt is s = some caps) :
    List.Forall₂ (fun p t => t ≠ [] ∧ ∀ c ∈ t, p c = true) (classes is) caps := by
  induction is generalizing s caps with
  | nil =>
    cases h
    exact .nil
  | cons item is ih =>
    cases item with
    | lit l =>
      rw [matchAt] at h
      split at h
      · exact ih h
      · cases h
    | plus p order capture =>
      rw [matchAt] at h
      obtain ⟨k, hk, h⟩ := List.exists_of_findSome?_eq_some h
      obtain ⟨hpos, hle⟩ := mem_lengths.mp hk
      obtain ⟨later, hlater, rfl⟩ := Option.map_eq_some_iff.mp h
      have htail := ih hlater
      cases capture with
      | false => exact htail
      | true =>
        refine .cons ⟨?_, fun c hc => ?_⟩ htail
        · intro hnil
          have hlen := congrArg List.length hnil
          have hrun := (List.takeWhile_prefix p (l := s)).length_le
          rw [List.length_take, List.length_nil] at hlen
          omega
        · have hpre : s.take k <+: s.takeWhile p :=
            List.prefix_of_prefix_length_le (List.take_prefix k s) (List.takeWhile_prefix p)
              ((List.length_take_le k s).trans hle)
          exact List.mem_takeWhile_imp (hpre.subset hc)

end

/-! A text followed by an ending that the pattern cannot straddle. -/

def Deterministic : List Item → Prop
  | [] => True
  | .lit _ :: is => Deterministic is
  | .plus p order _ :: is => order = .greedy ∧ Rejects p is ∧ Deterministic is

def Blocks (ending : List Char) : List Item → Prop
  | [] => True
  | .lit l :: is => (∀ i < l.length, ¬ l.drop i <+: ending) ∧ Blocks ending is
  | .plus p _ _ :: is =>
    matchAt is (ending.dropWhile p) = none ∧ matchAt is [] = none ∧ Blocks ending is

theorem dropWhile_append_of_not {p : Char → Bool} {x : List Char} (hx : ¬ ∀ c ∈ x, p c = true)
    (y : List Char) : (x ++ y).takeWhile p = x.takeWhile p ∧
      (x ++ y).dropWhile p = x.dropWhile p ++ y := by
  induction x with
  | nil => simp at hx
  | cons a x ih =>
    by_cases ha : p a = true
    · have hx' : ¬ ∀ c ∈ x, p c = true := fun h => hx (by simpa [ha] using h)
      obtain ⟨htake, hdrop⟩ := ih hx'
      rw [List.cons_append, List.takeWhile_cons_of_pos ha, List.takeWhile_cons_of_pos ha,
        List.dropWhile_cons_of_pos ha, List.dropWhile_cons_of_pos ha, htake, hdrop]
      exact ⟨rfl, rfl⟩
    · rw [List.cons_append, List.takeWhile_cons_of_neg ha, List.takeWhile_cons_of_neg ha,
        List.dropWhile_cons_of_neg ha, List.dropWhile_cons_of_neg ha]
      exact ⟨rfl, rfl⟩

theorem matchAt_append {ending : List Char} {is : List Item} (hdet : Deterministic is)
    (hb : Blocks ending is) (x : List Char) : matchAt is (x ++ ending) = matchAt is x := by
  induction is generalizing x with
  | nil => rfl
  | cons item is ih =>
    cases item with
    | lit l =>
      by_cases hl : l <+: x
      · obtain ⟨y, rfl⟩ := hl
        rw [List.append_assoc, matchAt_lit, matchAt_lit]
        exact ih hdet hb.2 y
      · rw [matchAt_lit_of_not hl]
        refine matchAt_lit_of_not fun h => ?_
        rcases List.prefix_or_prefix_of_prefix h (List.prefix_append x ending) with h' | ⟨t, rfl⟩
        · exact hl h'
        · have hne : t ≠ [] := fun hnil => hl (by rw [hnil, List.append_nil])
          have hpos := List.length_pos_iff.mpr hne
          refine hb.1 x.length (by rw [List.length_append]; omega) ?_
          rw [List.drop_left]
          exact (List.prefix_append_right_inj x).mp h
    | plus p order capture =>
      obtain ⟨rfl, hrej, hdet⟩ := hdet
      obtain ⟨hblank, hnil, hb⟩ := hb
      rw [matchAt_greedy hrej, matchAt_greedy hrej]
      by_cases hx : ∀ c ∈ x, p c = true
      · have hdrop : x.dropWhile p = [] := List.dropWhile_eq_nil_iff.mpr hx
        rw [List.dropWhile_append_of_pos hx, hblank, hdrop, hnil]
        simp
      · obtain ⟨htake, hdrop⟩ := dropWhile_append_of_not hx ending
        rw [htake, hdrop, ih hdet hb]

theorem matchAt_plus_append {ending : List Char} {p : Char → Bool} {capture : Bool} {is : List Item}
    (hrej : Rejects p is) (hdet : Deterministic is) (hb : Blocks ending is) {x : List Char}
    (hx : ¬ ∀ c ∈ x, p c = true) : matchAt (.plus p .greedy capture :: is) (x ++ ending) =
      matchAt (.plus p .greedy capture :: is) x := by
  obtain ⟨htake, hdrop⟩ := dropWhile_append_of_not hx ending
  rw [matchAt_greedy hrej, matchAt_greedy hrej, htake, hdrop, matchAt_append hdet hb]

theorem matchAt_run_append_none {ending : List Char} {p : Char → Bool} {order : Order}
    {capture : Bool} {is : List Item} (hdet : Deterministic is) (hb : Blocks ending is)
    (hend : ∀ j, matchAt is (ending.drop j) = none) {x : List Char}
    (hx : ∀ c ∈ x ++ ending, p c = true) : matchAt (.plus p order capture :: is) (x ++ ending) = none ↔
      matchAt (.plus p order capture :: is) x = none := by
  have hrun : ((x ++ ending).takeWhile p).length = x.length + ending.length := by
    rw [List.takeWhile_eq_self_iff.mpr hx, List.length_append]
  have hrunx : (x.takeWhile p).length = x.length := by
    rw [List.takeWhile_eq_self_iff.mpr fun c hc => hx c (List.mem_append_left _ hc)]
  have hdrop : ∀ k ≤ x.length, matchAt is ((x ++ ending).drop k) = matchAt is (x.drop k) := by
    intro k hk
    rw [List.drop_append_of_le_length hk, matchAt_append hdet hb]
  rw [matchAt_plus_eq_none_iff, matchAt_plus_eq_none_iff, hrun, hrunx]
  constructor
  · intro h k hk hkx
    rw [← hdrop k hkx]
    exact h k hk (by omega)
  · intro h k hk _
    rcases le_or_gt k x.length with hkx | hkx
    · rw [hdrop k hkx]
      exact h k hk hkx
    · obtain ⟨j, rfl⟩ := Nat.exists_eq_add_of_le hkx.le
      rw [List.drop_length_add_append]
      exact hend j

theorem mem_tail_of_match {p : Char → Bool} {capture : Bool} {l s : List Char} {is : List Item}
    (hrej : Rejects p (.lit l :: is)) {caps : List (List Char)}
    (h : matchAt (.plus p .greedy capture :: .lit l :: is) s = some caps) {c : Char} (hc : c ∈ l) :
    c ∈ s.tail := by
  rw [matchAt_greedy hrej] at h
  split at h
  · cases h
  next hne =>
  have hl : l <+: s.dropWhile p := by
    by_contra hnot
    rw [matchAt_lit_of_not hnot] at h
    cases h
  cases s with
  | nil => simp at hne
  | cons a s =>
    by_cases ha : p a = true
    · rw [List.dropWhile_cons_of_pos ha] at hl
      exact (List.dropWhile_suffix p).subset (hl.subset hc)
    · rw [List.takeWhile_cons_of_neg ha] at hne
      exact absurd rfl hne

/-! A blank run, the shortest text, and a tail that the ending matches. -/

def lead (ws any : Char → Bool) (tail : List Item) : List Item :=
  .plus ws .greedy false :: .plus any .lazy true :: .plus ws .greedy false :: tail

structure EndsWith (ws : Char → Bool) (tail : List Item) (b c : Char) (rest : List Char)
    (vals : List (List Char)) : Prop where
  rejects : Rejects ws tail
  deterministic : Deterministic tail
  blocks : Blocks (b :: c :: rest) tail
  blank : ws b = true
  solid : ws c = false
  value : matchAt tail (c :: rest) = some vals
  nil_none : matchAt tail [] = none
  inner : ∀ j, matchAt (.plus ws .greedy false :: tail) (rest.drop j) = none

section

variable {ws any : Char → Bool} {tail : List Item} {a b c : Char} {rest metric : List Char}
  {vals : List (List Char)}

theorem EndsWith.solid_none (h : EndsWith ws tail b c rest vals) (j : ℕ) :
    matchAt (.plus ws .greedy false :: tail) ((c :: rest).drop j) = none := by
  cases j with
  | zero =>
    refine matchAt_plus_none fun k hk hle => ?_
    rw [List.drop_zero, List.takeWhile_cons_of_neg (by simp [h.solid])] at hle
    simp at hle
    omega
  | succ j => exact h.inner j

theorem EndsWith.value_blank (h : EndsWith ws tail b c rest vals) {x : List Char}
    (hx : ∀ d ∈ x, ws d = true) :
    matchAt (.plus ws .greedy false :: tail) (x ++ b :: c :: rest) = some vals := by
  have hne : (x ++ b :: c :: rest).takeWhile ws ≠ [] := by
    rw [List.takeWhile_append_of_pos hx, List.takeWhile_cons_of_pos h.blank]
    simp
  rw [matchAt_greedy h.rejects, if_neg hne, List.dropWhile_append_of_pos hx,
    List.dropWhile_cons_of_pos h.blank, List.dropWhile_cons_of_neg (by simp [h.solid]), h.value]
  rfl

theorem EndsWith.value_or (h : EndsWith ws tail b c rest vals) (x : List Char) :
    matchAt (.plus ws .greedy false :: tail) (x ++ b :: c :: rest) =
        matchAt (.plus ws .greedy false :: tail) x ∨
      matchAt (.plus ws .greedy false :: tail) (x ++ b :: c :: rest) = some vals := by
  by_cases hx : ∀ d ∈ x, ws d = true
  · exact .inr (h.value_blank hx)
  · exact .inl (matchAt_plus_append h.rejects h.deterministic h.blocks hx)

theorem EndsWith.all_blank_none (h : EndsWith ws tail b c rest vals) {x : List Char}
    (hx : ∀ d ∈ x, ws d = true) : matchAt (.plus ws .greedy false :: tail) x = none := by
  rw [matchAt_greedy h.rejects, List.dropWhile_eq_nil_iff.mpr hx, h.nil_none]
  simp

/-- What a match gives behind its first captured text. -/
def laterOr (vals : List (List Char)) : Option (List (List Char)) → List (List Char)
  | some (_ :: later) => later
  | _ => vals

theorem takeWhile_length_of_all {p : Char → Bool} {x : List Char} (h : ∀ d ∈ x, p d = true) :
    (x.takeWhile p).length = x.length := by
  rw [List.takeWhile_eq_self_iff.mpr h]

/-- A phrase inside the text comes before the ending. -/
theorem EndsWith.shortest_inside (h : EndsWith ws tail b c rest vals) {x : List Char}
    (hany : ∀ d ∈ x ++ b :: c :: rest, any d = true) (hex : ∃ j, 0 < j ∧ j ≤ x.length ∧
      (matchAt (.plus ws .greedy false :: tail) (x.drop j)).isSome) :
    ∃ m, matchAt (.plus any .lazy true :: .plus ws .greedy false :: tail) (x ++ b :: c :: rest) =
      some (m :: laterOr vals
        (matchAt (.plus any .lazy true :: .plus ws .greedy false :: tail) x)) := by
  have hrunx : (x.takeWhile any).length = x.length :=
    takeWhile_length_of_all fun d hd => hany d (List.mem_append_left _ hd)
  have hrun := takeWhile_length_of_all hany
  rw [List.length_append] at hrun
  have hdrop : ∀ j ≤ x.length, (x ++ b :: c :: rest).drop j = x.drop j ++ b :: c :: rest :=
    fun j hj => List.drop_append_of_le_length hj
  obtain ⟨hj, hjx, hsome⟩ := Nat.find_spec hex
  have hmin : ∀ i, 0 < i → i < Nat.find hex →
      matchAt (.plus ws .greedy false :: tail) (x.drop i) = none := by
    intro i hi hlt
    have hnot := Nat.find_min hex hlt
    simpa [hi, (hlt.le.trans hjx)] using hnot
  obtain ⟨caps, hcaps⟩ := Option.isSome_iff_exists.mp hsome
  have hsolid : ∀ i ≤ Nat.find hex, ¬ ∀ d ∈ x.drop i, ws d = true := by
    intro i hi hall
    have hsub : ∀ d ∈ x.drop (Nat.find hex), ws d = true := by
      intro d hd
      refine hall d ?_
      have heq : x.drop (Nat.find hex) = (x.drop i).drop (Nat.find hex - i) := by
        rw [List.drop_drop]
        congr 1
        omega
      rw [heq] at hd
      exact List.mem_of_mem_drop hd
    rw [h.all_blank_none hsub] at hcaps
    cases hcaps
  have hsame : ∀ i ≤ Nat.find hex, matchAt (.plus ws .greedy false :: tail)
      ((x ++ b :: c :: rest).drop i) = matchAt (.plus ws .greedy false :: tail) (x.drop i) := by
    intro i hi
    rw [hdrop i (hi.trans hjx)]
    exact matchAt_plus_append h.rejects h.deterministic h.blocks (hsolid i hi)
  refine ⟨(x ++ b :: c :: rest).take (Nat.find hex), ?_⟩
  rw [matchAt_lazy_shortest hj (hjx.trans hrunx.ge) hcaps hmin]
  refine matchAt_lazy_shortest hj (by omega) ((hsame _ le_rfl).trans hcaps) fun i hi hlt => ?_
  rw [hsame i hlt.le, hmin i hi hlt]

theorem EndsWith.shortest_ending (h : EndsWith ws tail b c rest vals) {x : List Char} (hne : x ≠ [])
    (hany : ∀ d ∈ x ++ b :: c :: rest, any d = true) (hnone : ∀ j, 0 < j → j ≤ x.length →
      matchAt (.plus ws .greedy false :: tail) (x.drop j) = none) :
    ∃ m, matchAt (.plus any .lazy true :: .plus ws .greedy false :: tail) (x ++ b :: c :: rest) =
      some (m :: laterOr vals
        (matchAt (.plus any .lazy true :: .plus ws .greedy false :: tail) x)) := by
  have hpos := List.length_pos_iff.mpr hne
  have hrunx : (x.takeWhile any).length = x.length :=
    takeWhile_length_of_all fun d hd => hany d (List.mem_append_left _ hd)
  have hrun := takeWhile_length_of_all hany
  rw [List.length_append] at hrun
  have hdrop : ∀ j ≤ x.length, (x ++ b :: c :: rest).drop j = x.drop j ++ b :: c :: rest :=
    fun j hj => List.drop_append_of_le_length hj
  have hvals : ∃ j, 0 < j ∧ j ≤ x.length ∧ matchAt (.plus ws .greedy false :: tail)
      ((x ++ b :: c :: rest).drop j) = some vals := by
    refine ⟨x.length, hpos, le_rfl, ?_⟩
    rw [List.drop_left]
    exact h.value_blank (x := []) (by simp)
  obtain ⟨hj, hjx, hval⟩ := Nat.find_spec hvals
  have hx : matchAt (.plus any .lazy true :: .plus ws .greedy false :: tail) x = none :=
    matchAt_plus_none fun j hj hle => hnone j hj (hrunx ▸ hle)
  refine ⟨(x ++ b :: c :: rest).take (Nat.find hvals), ?_⟩
  rw [hx]
  refine matchAt_lazy_shortest hj (by omega) hval fun i hi hlt => ?_
  have hnot := Nat.find_min hvals hlt
  rw [hdrop i (hlt.le.trans hjx)] at hnot ⊢
  rcases h.value_or (x.drop i) with heq | heq
  · rw [heq]
    exact hnone i hi (hlt.le.trans hjx)
  · exact absurd ⟨hi, hlt.le.trans hjx, heq⟩ hnot

theorem EndsWith.shortest (h : EndsWith ws tail b c rest vals) {x : List Char} (hne : x ≠ [])
    (hany : ∀ d ∈ x ++ b :: c :: rest, any d = true) :
    ∃ m, matchAt (.plus any .lazy true :: .plus ws .greedy false :: tail) (x ++ b :: c :: rest) =
      some (m :: laterOr vals
        (matchAt (.plus any .lazy true :: .plus ws .greedy false :: tail) x)) := by
  by_cases hex : ∃ j, 0 < j ∧ j ≤ x.length ∧
      (matchAt (.plus ws .greedy false :: tail) (x.drop j)).isSome
  · exact h.shortest_inside hany hex
  · refine h.shortest_ending hne hany fun j hj hjx => ?_
    by_contra hsome
    exact hex ⟨j, hj, hjx, Option.isSome_iff_ne_none.mpr hsome⟩

theorem EndsWith.solid_lazy_none (h : EndsWith ws tail b c rest vals) {x : List Char}
    (hx : x = c :: rest ∨ x = b :: c :: rest) :
    matchAt (.plus any .lazy true :: .plus ws .greedy false :: tail) x = none := by
  refine matchAt_plus_none fun k hk _ => ?_
  rcases hx with rfl | rfl
  · exact h.solid_none k
  · obtain ⟨j, rfl⟩ := Nat.exists_eq_succ_of_ne_zero hk.ne'
    exact h.solid_none j

theorem EndsWith.lead_nil (h : EndsWith ws tail b c rest vals) (ha : ws a = true) :
    matchAt (lead ws any tail) (a :: b :: c :: rest) = none := by
  refine matchAt_plus_none fun k hk hle => ?_
  rw [List.takeWhile_cons_of_pos ha, List.takeWhile_cons_of_pos h.blank,
    List.takeWhile_cons_of_neg (by simp [h.solid])] at hle
  obtain rfl | rfl : k = 1 ∨ k = 2 := by simp at hle; omega
  · exact h.solid_lazy_none (.inr rfl)
  · exact h.solid_lazy_none (.inl rfl)

theorem lead_one {x : List Char} (ha : ws a = true) (hx : ∀ d ∈ x.head?, ws d = false) :
    matchAt (lead ws any tail) (a :: x) =
      matchAt (.plus any .lazy true :: .plus ws .greedy false :: tail) x := by
  have hone : ((a :: x).takeWhile ws).length = 1 := by
    rw [List.takeWhile_cons_of_pos ha]
    cases x with
    | nil => rfl
    | cons d x =>
      rw [List.takeWhile_cons_of_neg (by simp [hx d rfl])]
      rfl
  cases hrest : matchAt (.plus any .lazy true :: .plus ws .greedy false :: tail) x with
  | none =>
    refine matchAt_plus_none fun k hk hle => ?_
    obtain rfl : k = 1 := by omega
    exact hrest
  | some caps => exact matchAt_greedy_longest Nat.one_pos hone.ge hrest fun j hj hjn => by omega

theorem head_dropWhile {p : Char → Bool} (x : List Char) :
    ∀ d ∈ (x.dropWhile p).head?, p d = false := by
  intro d hd
  have hnot := List.head?_dropWhile_not p x
  rw [hd] at hnot
  exact hnot

/-- In a text of blanks all but two of them are taken before the text. -/
theorem EndsWith.lead_blank (h : EndsWith ws tail b c rest vals) (ha : ws a = true)
    (hne : metric ≠ []) (hany : ∀ d ∈ metric ++ b :: c :: rest, any d = true)
    (hx : ∀ d ∈ metric, ws d = true) :
    ∃ m, matchAt (lead ws any tail) (a :: (metric ++ b :: c :: rest)) =
      some (m :: laterOr vals (matchAt (lead ws any tail) (a :: metric.dropWhile ws))) := by
  have hlead : matchAt (lead ws any tail) (a :: metric.dropWhile ws) = none := by
    rw [List.dropWhile_eq_nil_iff.mpr hx]
    refine matchAt_plus_none fun k hk hle => matchAt_plus_none fun j hj hle' => ?_
    obtain ⟨i, rfl⟩ := Nat.exists_eq_succ_of_ne_zero hk.ne'
    simp at hle'
    omega
  obtain ⟨init, e, hsplit⟩ : ∃ init e, metric = init ++ [e] :=
    ⟨_, _, (List.dropLast_append_getLast hne).symm⟩
  have he : ws e = true := hx e (by simp [hsplit])
  have hrun : ((a :: (metric ++ b :: c :: rest)).takeWhile ws).length = init.length + 3 := by
    rw [List.takeWhile_cons_of_pos ha, List.takeWhile_append_of_pos hx,
      List.takeWhile_cons_of_pos h.blank, List.takeWhile_cons_of_neg (by simp [h.solid]), hsplit]
    simp
  have hform : a :: (metric ++ b :: c :: rest) = (a :: init) ++ e :: b :: c :: rest := by
    simp [hsplit]
  have hany' : any e = true := hany e (by simp [hsplit])
  have hfirst : matchAt (.plus any .lazy true :: .plus ws .greedy false :: tail)
      (e :: b :: c :: rest) = some ([e] :: vals) := by
    refine matchAt_lazy_shortest Nat.one_pos ?_ (h.value_blank (x := []) (by simp))
      fun j hj hj1 => absurd hj1 (by omega)
    rw [List.takeWhile_cons_of_pos hany', List.length_cons]
    omega
  refine ⟨[e], ?_⟩
  rw [hlead, hform]
  rw [hform] at hrun
  refine matchAt_greedy_longest (k := (a :: init).length) (by simp) (by rw [hrun]; simp) ?_ ?_
  · rw [List.drop_left]
    exact hfirst
  · intro j hj hjn
    rw [List.length_cons] at hj
    obtain rfl | rfl : j = (a :: init ++ [e]).length ∨ j = (a :: init ++ [e, b]).length := by
      simp only [List.length_append, List.length_cons, List.length_nil]
      omega
    · have hshift : a :: init ++ e :: b :: c :: rest = (a :: init ++ [e]) ++ b :: c :: rest := by
        simp
      rw [hshift, List.drop_left]
      exact h.solid_lazy_none (.inr rfl)
    · have hshift : a :: init ++ e :: b :: c :: rest = (a :: init ++ [e, b]) ++ c :: rest := by
        simp
      rw [hshift, List.drop_left]
      exact h.solid_lazy_none (.inl rfl)

/-- The blanks before any other text are taken whole. -/
theorem EndsWith.lead_solid (h : EndsWith ws tail b c rest vals) (ha : ws a = true)
    (hany : ∀ d ∈ metric ++ b :: c :: rest, any d = true) (hx : ¬ ∀ d ∈ metric, ws d = true) :
    ∃ m, matchAt (lead ws any tail) (a :: (metric ++ b :: c :: rest)) =
      some (m :: laterOr vals (matchAt (lead ws any tail) (a :: metric.dropWhile ws))) := by
  have hsolid : metric.dropWhile ws ≠ [] := fun hnil => hx (List.dropWhile_eq_nil_iff.mp hnil)
  have hall : ∀ d ∈ metric.dropWhile ws ++ b :: c :: rest, any d = true := by
    intro d hd
    rcases List.mem_append.mp hd with hd | hd
    · exact hany d (List.mem_append_left _ ((List.dropWhile_suffix ws).subset hd))
    · exact hany d (List.mem_append_right _ hd)
  obtain ⟨m, hm⟩ := h.shortest hsolid hall
  obtain ⟨htake, hdrop⟩ := dropWhile_append_of_not hx (b :: c :: rest)
  refine ⟨m, ?_⟩
  rw [lead_one ha (head_dropWhile metric)]
  have hbody : (a :: (metric ++ b :: c :: rest)).drop (1 + (metric.takeWhile ws).length) =
      metric.dropWhile ws ++ b :: c :: rest := by
    rw [Nat.add_comm, List.drop_succ_cons, ← hdrop, ← htake, drop_length_takeWhile]
  have hrun : ((a :: (metric ++ b :: c :: rest)).takeWhile ws).length =
      1 + (metric.takeWhile ws).length := by
    rw [List.takeWhile_cons_of_pos ha, htake, List.length_cons, Nat.add_comm]
  exact matchAt_greedy_longest (by omega) hrun.ge (by rw [hbody]; exact hm)
    fun j hj hjn => by omega

/-- A match takes the values of the ending, unless a phrase inside the text,
stripped of its leading blanks, comes first. -/
theorem EndsWith.lead_eq (h : EndsWith ws tail b c rest vals) (ha : ws a = true)
    (hne : metric ≠ []) (hany : ∀ d ∈ metric ++ b :: c :: rest, any d = true) :
    ∃ m, matchAt (lead ws any tail) (a :: (metric ++ b :: c :: rest)) =
      some (m :: laterOr vals (matchAt (lead ws any tail) (a :: metric.dropWhile ws))) := by
  by_cases hx : ∀ d ∈ metric, ws d = true
  · exact h.lead_blank ha hne hany hx
  · exact h.lead_solid ha hany hx

theorem laterOr_eq_iff (first : List Char) (x : List Char) :
    laterOr vals (matchAt (lead ws any tail) x) = vals ↔
      ∀ caps, (matchAt (lead ws any tail) x).map (first :: ·) = some caps → caps.drop 2 = vals := by
  cases hx : matchAt (lead ws any tail) x with
  | none => simp [laterOr]
  | some found =>
    have hall := matchAt_captures hx
    change List.Forall₂ _ (any :: classes tail) found at hall
    rcases hall with _ | _
    simp [laterOr]

/-- When the values of the ending are what the pattern takes. -/
theorem EndsWith.lead_match_iff (h : EndsWith ws tail b c rest vals) (ha : ws a = true)
    (hany : ∀ d ∈ metric ++ b :: c :: rest, any d = true) (first : List Char) :
    (∃ x m, (matchAt (lead ws any tail) (a :: (metric ++ b :: c :: rest))).map (first :: ·) =
        some (x :: m :: vals)) ↔
      metric ≠ [] ∧ ∀ caps, (matchAt (lead ws any tail) (a :: metric.dropWhile ws)).map (first :: ·) =
        some caps → caps.drop 2 = vals := by
  by_cases hnil : metric = []
  · rw [hnil, List.nil_append, h.lead_nil ha]
    simp
  · obtain ⟨m', hlead⟩ := h.lead_eq ha hnil hany
    rw [hlead, ← laterOr_eq_iff first]
    constructor
    · rintro ⟨x, m, heq⟩
      simp only [Option.map_some, Option.some.injEq, List.cons.injEq] at heq
      exact ⟨hnil, heq.2.2⟩
    · rintro ⟨-, hvals⟩
      exact ⟨first, m', by rw [hvals]; rfl⟩

end

end Regex
