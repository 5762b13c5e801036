import Mathlib.Order.WithBot

/-!
# Binary heaps in a list

The functions of Python's `heapq`, with the test `lt` as a parameter. The children of
position `i` are at `2 * i + 1` and `2 * i + 2`. A position moves by swaps: `siftdown`
brings an element up to its place, `siftup` brings the smaller children up to a leaf and
puts the element there before it is moved back up.

`IsHeap lt l` is the heap invariant. All operations keep the elements, in any order; they
keep or make the invariant, and the first element of a heap is a least one.
-/

namespace Vllm.Library.Heapq

open List

variable {α : Type}

def parent (i : Nat) : Nat := (i - 1) / 2

def swap (l : List α) (i j : Nat) : List α :=
  match l[i]?, l[j]? with
  | some a, some b => (l.set i b).set j a
  | _, _ => l

section Operations

variable (lt : α → α → Bool) (l : List α)

/-- `_siftdown`, in at most `fuel` steps. -/
def siftdown (startpos : Nat) : Nat → List α → Nat → List α
  | 0, l, _ => l
  | fuel + 1, l, pos =>
    if startpos < pos then
      match l[pos]?, l[parent pos]? with
      | some a, some b =>
        if lt a b then siftdown startpos fuel (swap l pos (parent pos)) (parent pos) else l
      | _, _ => l
    else l

/-- The smaller child of a position that has one. -/
def smallerChild (pos : Nat) : Nat :=
  match l[2 * pos + 1]?, l[2 * pos + 2]? with
  | some a, some b => if lt a b then 2 * pos + 1 else 2 * pos + 2
  | _, _ => 2 * pos + 1

/-- The loop of `_siftup`: the list and the leaf that the element has come to. -/
def sink : Nat → List α → Nat → List α × Nat
  | 0, l, pos => (l, pos)
  | fuel + 1, l, pos =>
    if 2 * pos + 1 < l.length then
      sink fuel (swap l pos (smallerChild lt l pos)) (smallerChild lt l pos)
    else (l, pos)

/-- `_siftup`. -/
def siftup (pos : Nat) : List α :=
  let (l', leaf) := sink lt l.length l pos
  siftdown lt pos l.length l' leaf

def heappush (a : α) : List α := siftdown lt 0 (l.length + 1) (l ++ [a]) l.length

/-- `heappop`: the first element and the heap without it. -/
def heappop : Option (α × List α) :=
  match l with
  | [] => none
  | a :: rest =>
    match rest.getLast? with
    | none => some (a, [])
    | some last => some (a, siftup lt (last :: rest.dropLast) 0)

def heapify : List α := (List.range (l.length / 2)).reverse.foldl (siftup lt) l

end Operations

/-! ## The elements stay -/

variable {lt : α → α → Bool} {l : List α} {i j pos startpos fuel : Nat} {a : α} {rest : List α}

theorem swap_perm (l : List α) (i j : Nat) : (swap l i j).Perm l := by
  unfold swap
  split
  · next a b ha hb =>
    obtain ⟨hi, rfl⟩ := List.getElem?_eq_some_iff.mp ha
    obtain ⟨hj, rfl⟩ := List.getElem?_eq_some_iff.mp hb
    exact set_set_perm hi hj
  · exact List.Perm.refl _

theorem length_swap (l : List α) (i j : Nat) : (swap l i j).length = l.length :=
  (swap_perm l i j).length_eq

theorem siftdown_perm (fuel : Nat) (l : List α) (pos : Nat) :
    (siftdown lt startpos fuel l pos).Perm l := by
  induction fuel generalizing l pos with
  | zero => exact List.Perm.refl _
  | succ fuel ih =>
    unfold siftdown
    split
    · split
      · split
        · exact (ih _ _).trans (swap_perm _ _ _)
        · exact List.Perm.refl _
      · exact List.Perm.refl _
    · exact List.Perm.refl _

theorem sink_perm (fuel : Nat) (l : List α) (pos : Nat) : (sink lt fuel l pos).1.Perm l := by
  induction fuel generalizing l pos with
  | zero => exact List.Perm.refl _
  | succ fuel ih =>
    unfold sink
    split
    · exact (ih _ _).trans (swap_perm _ _ _)
    · exact List.Perm.refl _

theorem siftup_perm (l : List α) (pos : Nat) : (siftup lt l pos).Perm l :=
  (siftdown_perm _ _ _).trans (sink_perm _ _ _)

/-- A list that is not empty gives its first element. -/
theorem heappop_cons (lt : α → α → Bool) (a : α) (l : List α) :
    ∃ rest, heappop lt (a :: l) = some (a, rest) := by
  unfold heappop
  cases hlast : l.getLast? with
  | none => exact ⟨[], by simp only [hlast]⟩
  | some last => exact ⟨siftup lt (last :: l.dropLast) 0, by simp only [hlast]⟩

theorem heappop_perm (h : heappop lt l = some (a, rest)) : (a :: rest).Perm l := by
  unfold heappop at h
  split at h
  · cases h
  split at h
  · next hlast =>
    cases h
    rw [getLast?_eq_none_iff.mp hlast]
  rename_i last hlast
  cases h
  refine List.Perm.cons _ ((siftup_perm _ _).trans ?_)
  obtain ⟨init, rfl⟩ := getLast?_eq_some_iff.mp hlast
  rw [dropLast_concat]
  exact (perm_append_singleton last init).symm

/-! ## The order of a tree -/

section Tree

variable {γ : Type} [LinearOrder γ] {g : Nat → γ} {start : Nat}

theorem parent_lt (h : 0 < i) : parent i < i := by
  unfold parent
  omega

/-- `pos` is in the tree below `start`. -/
def Descends (start pos : Nat) : Prop := ∃ k, parent^[k] pos = start

theorem iterate_parent_le (k i : Nat) : parent^[k] i ≤ i := by
  induction k with
  | zero => exact Nat.le_refl i
  | succ k ih =>
    rw [Function.iterate_succ_apply']
    refine Nat.le_trans ?_ ih
    unfold parent
    omega

theorem Descends.le (h : Descends start pos) : start ≤ pos := by
  obtain ⟨k, rfl⟩ := h
  exact iterate_parent_le k pos

theorem Descends.parent (h : Descends start pos) (hne : pos ≠ start) :
    Descends start (parent pos) := by
  obtain ⟨k, hk⟩ := h
  cases k with
  | zero => exact absurd hk hne
  | succ k => exact ⟨k, hk⟩

theorem Descends.child (h : Descends start pos) (hchild : Heapq.parent i = pos) :
    Descends start i := by
  obtain ⟨k, hk⟩ := h
  refine ⟨k + 1, ?_⟩
  rw [Function.iterate_succ_apply, hchild]
  exact hk

/-- The values are ordered along the branches from `start` on. -/
def OrderedFrom (g : Nat → γ) (start : Nat) : Prop :=
  ∀ i, 0 < i → start ≤ parent i → g (parent i) ≤ g i

/-- Two positions exchange their values. -/
def exchange (g : Nat → γ) (i j : Nat) (k : Nat) : γ :=
  if k = i then g j else if k = j then g i else g k

/-- Only the value at `pos` may be too small for its place. -/
structure Rising (g : Nat → γ) (start pos : Nat) : Prop where
  descends : Descends start pos
  ordered : ∀ i, 0 < i → start ≤ parent i → i ≠ pos → g (parent i) ≤ g i
  grand : pos ≠ start → ∀ i, 0 < i → parent i = pos → g (parent pos) ≤ g i

/-- The value at `pos` may be wrong for its place in either direction. -/
structure Sinking (g : Nat → γ) (start pos : Nat) : Prop where
  descends : Descends start pos
  ordered : ∀ i, 0 < i → start ≤ parent i → i ≠ pos → parent i ≠ pos → g (parent i) ≤ g i
  grand : pos ≠ start → ∀ i, 0 < i → parent i = pos → g (parent pos) ≤ g i

theorem Rising.orderedFrom (h : Rising g start pos)
    (hpos : pos ≠ start → g (parent pos) ≤ g pos) : OrderedFrom g start := by
  intro i hi hstart
  by_cases heq : i = pos
  · subst heq
    refine hpos fun heq => ?_
    have hlt := parent_lt hi
    omega
  · exact h.ordered i hi hstart heq

theorem Rising.up (h : Rising g start pos) (hne : pos ≠ start) (hlt : g pos < g (parent pos)) :
    Rising (exchange g pos (parent pos)) start (parent pos) := by
  have hle := h.descends.le
  have hpos : 0 < pos := by omega
  have hparent := parent_lt hpos
  have hdescends := h.descends.parent hne
  refine ⟨hdescends, fun i hi hstart hneq => ?_, fun hneq i hi heq => ?_⟩
  · by_cases hip : i = pos
    · subst hip
      simp only [exchange, if_true, if_neg hparent.ne]
      exact hlt.le
    by_cases hc : parent i = pos
    · have hgrand := h.grand hne i hi hc
      simp only [exchange, hc, if_true, if_neg hip, if_neg hneq]
      exact hgrand
    have hold := h.ordered i hi hstart hip
    by_cases hq : parent i = parent pos
    · simp only [exchange, hq, if_true, if_neg hparent.ne, if_neg hip, if_neg hneq]
      rw [hq] at hold
      exact hlt.le.trans hold
    · simp only [exchange, if_neg hc, if_neg hq, if_neg hip, if_neg hneq]
      exact hold
  · have hqpos : 0 < parent pos := by
      have := hdescends.le
      omega
    have hqlt := parent_lt hqpos
    have hqstart : start ≤ parent (parent pos) := (hdescends.parent hneq).le
    have hq := h.ordered (parent pos) hqpos hqstart hparent.ne
    have hgq : exchange g pos (parent pos) (parent (parent pos)) = g (parent (parent pos)) := by
      simp only [exchange]
      rw [if_neg (by omega), if_neg (by omega)]
    rw [hgq]
    have hi' := parent_lt hi
    by_cases hip : i = pos
    · simp only [exchange, hip, if_true]
      exact hq
    have hold := h.ordered i hi (by omega) hip
    simp only [exchange, if_neg hip]
    rw [if_neg (by omega)]
    rw [heq] at hold
    exact hq.trans hold

theorem Sinking.down (h : Sinking g start pos) {c : Nat} (hc : 0 < c) (hparent : parent c = pos)
    (hleast : ∀ i, 0 < i → parent i = pos → g c ≤ g i) :
    Sinking (exchange g pos c) start c := by
  have hle := h.descends.le
  have hlt : pos < c := hparent ▸ parent_lt hc
  refine ⟨h.descends.child hparent, fun i hi hstart hneq hneq' => ?_, fun hneq i hi heq => ?_⟩
  · have hi' := parent_lt hi
    by_cases hip : i = pos
    · subst hip
      have hgrand := h.grand (by omega) c hc hparent
      simp only [exchange, if_true, if_neg hi'.ne, if_neg hneq']
      exact hgrand
    · by_cases hpi : parent i = pos
      · simp only [exchange, hpi, if_true, if_neg hip, if_neg hneq]
        exact hleast i hi hpi
      · simp only [exchange, if_neg hpi, if_neg hneq', if_neg hip, if_neg hneq]
        exact h.ordered i hi hstart hip hpi
  · have hi' := parent_lt hi
    have hold := h.ordered i hi (by omega) (by omega) (by omega)
    simp only [exchange, hparent, if_true]
    rw [if_neg (by omega), if_neg (by omega)]
    rw [heq] at hold
    exact hold

end Tree

/-! ## The heap invariant -/

/-- No element is below the one at its parent. -/
def IsHeap (lt : α → α → Bool) (l : List α) : Prop :=
  ∀ i < l.length, 0 < i → ∀ a ∈ l[i]?, ∀ b ∈ l[parent i]?, lt a b = false

section Order

variable {β : Type} {f : α → β}

/-- The rank of a position; those outside of the list are above all others. -/
def rankAt (f : α → β) (l : List α) (i : Nat) : WithTop β :=
  match l[i]? with
  | some a => f a
  | none => ⊤

theorem rankAt_of_le (h : l.length ≤ i) : rankAt f l i = ⊤ := by
  rw [rankAt, getElem?_eq_none h]

theorem rankAt_of_get (h : l[i]? = some a) : rankAt f l i = f a := by
  rw [rankAt, h]

theorem rankAt_swap (hi : i < l.length) (hj : j < l.length) :
    rankAt f (swap l i j) = exchange (rankAt f l) i j := by
  funext k
  unfold swap exchange rankAt
  rw [getElem?_eq_getElem hi, getElem?_eq_getElem hj]
  by_cases hki : k = i <;> by_cases hkj : k = j
  · subst hki
    subst hkj
    simp [hi]
  · subst hki
    have hne : j ≠ k := fun h => hkj h.symm
    simp [hi, hne]
  · subst hkj
    simp [hj, hki]
  · have hne : i ≠ k := fun h => hki h.symm
    have hne' : j ≠ k := fun h => hkj h.symm
    simp [hne, hne', hki, hkj]

variable [LinearOrder β] (hlt : ∀ a b, lt a b = true ↔ f a < f b)

include hlt

theorem isHeap_iff : IsHeap lt l ↔ OrderedFrom (rankAt f l) 0 := by
  have hnot : ∀ a b, lt a b = false ↔ f b ≤ f a := by
    intro a b
    rw [← Bool.not_eq_true, hlt, not_lt]
  constructor
  · intro h i hi _
    by_cases hlen : i < l.length
    · have hparent : parent i < l.length := (parent_lt hi).trans hlen
      have hle := h i hlen hi _ (getElem?_eq_getElem hlen) _ (getElem?_eq_getElem hparent)
      rw [rankAt_of_get (getElem?_eq_getElem hlen), rankAt_of_get (getElem?_eq_getElem hparent)]
      exact WithTop.coe_le_coe.mpr ((hnot _ _).mp hle)
    · rw [rankAt_of_le (not_lt.mp hlen)]
      exact le_top
  · intro h i _ hi a ha b hb
    have hle := h i hi (Nat.zero_le _)
    rw [rankAt_of_get ha, rankAt_of_get hb] at hle
    exact (hnot a b).mpr (WithTop.coe_le_coe.mp hle)

theorem siftdown_ordered (hpos : pos < l.length) (hfuel : pos ≤ fuel)
    (h : Rising (rankAt f l) startpos pos) :
    OrderedFrom (rankAt f (siftdown lt startpos fuel l pos)) startpos := by
  induction fuel generalizing l pos with
  | zero =>
    have hle := h.descends.le
    exact h.orderedFrom fun hne => absurd (by omega) hne
  | succ fuel ih =>
    have hle := h.descends.le
    unfold siftdown
    by_cases hstart : startpos < pos
    · have hparent : parent pos < pos := parent_lt (by omega)
      have hget := getElem?_eq_getElem hpos
      have hget' := getElem?_eq_getElem (hparent.trans hpos)
      rw [if_pos hstart, hget, hget']
      dsimp only
      by_cases hless : lt l[pos] l[parent pos] = true
      · rw [if_pos hless]
        have hrank : rankAt f l pos < rankAt f l (parent pos) := by
          rw [rankAt_of_get hget, rankAt_of_get hget']
          exact WithTop.coe_lt_coe.mpr ((hlt _ _).mp hless)
        refine ih (by rw [length_swap]; omega) (by omega) ?_
        rw [rankAt_swap hpos (hparent.trans hpos)]
        exact h.up hstart.ne' hrank
      · rw [if_neg hless]
        refine h.orderedFrom fun _ => ?_
        rw [rankAt_of_get hget, rankAt_of_get hget']
        exact WithTop.coe_le_coe.mpr (not_lt.mp fun h => hless ((hlt _ _).mpr h))
    · rw [if_neg hstart]
      exact h.orderedFrom fun hne => absurd (by omega) hne

/-- The smaller child is a child, and no child is below it. -/
theorem smallerChild_spec (h : 2 * pos + 1 < l.length) :
    smallerChild lt l pos < l.length ∧ pos < smallerChild lt l pos ∧
      parent (smallerChild lt l pos) = pos ∧
      ∀ i, 0 < i → parent i = pos → rankAt f l (smallerChild lt l pos) ≤ rankAt f l i := by
  have hchild : ∀ i, 0 < i → parent i = pos → i = 2 * pos + 1 ∨ i = 2 * pos + 2 := by
    intro i hi hparent
    unfold parent at hparent
    omega
  have hfirst := getElem?_eq_getElem h
  unfold smallerChild
  rw [hfirst]
  by_cases hsecond : 2 * pos + 2 < l.length
  · rw [getElem?_eq_getElem hsecond]
    dsimp only
    have hrank := rankAt_of_get (f := f) hfirst
    have hrank' := rankAt_of_get (f := f) (getElem?_eq_getElem hsecond)
    by_cases hless : lt l[2 * pos + 1] l[2 * pos + 2] = true
    · rw [if_pos hless]
      refine ⟨h, by omega, by unfold parent; omega, fun i hi hparent => ?_⟩
      rcases hchild i hi hparent with rfl | rfl
      · exact le_refl _
      · rw [hrank, hrank']
        exact WithTop.coe_le_coe.mpr ((hlt _ _).mp hless).le
    · rw [if_neg hless]
      refine ⟨hsecond, by omega, by unfold parent; omega, fun i hi hparent => ?_⟩
      rcases hchild i hi hparent with rfl | rfl
      · rw [hrank, hrank']
        exact WithTop.coe_le_coe.mpr (not_lt.mp fun h => hless ((hlt _ _).mpr h))
      · exact le_refl _
  · rw [getElem?_eq_none (not_lt.mp hsecond)]
    dsimp only
    refine ⟨h, by omega, by unfold parent; omega, fun i hi hparent => ?_⟩
    rcases hchild i hi hparent with rfl | rfl
    · exact le_refl _
    · rw [rankAt_of_le (not_lt.mp hsecond)]
      exact le_top

theorem sink_rising (hpos : pos < l.length) (hfuel : l.length ≤ pos + fuel)
    (h : Sinking (rankAt f l) startpos pos) :
    (sink lt fuel l pos).2 < l.length ∧
      Rising (rankAt f (sink lt fuel l pos).1) startpos (sink lt fuel l pos).2 := by
  induction fuel generalizing l pos with
  | zero => omega
  | succ fuel ih =>
    unfold sink
    split
    · next hchild =>
      obtain ⟨hlen, hgt, hparent, hleast⟩ := smallerChild_spec hlt hchild
      have hsinking : Sinking (rankAt f (swap l pos (smallerChild lt l pos))) startpos
          (smallerChild lt l pos) := by
        rw [rankAt_swap hpos hlen]
        exact h.down (by omega) hparent hleast
      rw [← length_swap l pos (smallerChild lt l pos)] at hlen hfuel ⊢
      exact ih hlen (by omega) hsinking
    · next hchild =>
      -- a leaf has no child in the list
      have htop : ∀ i, 0 < i → parent i = pos → rankAt f l i = ⊤ := by
        intro i hi hparent
        refine rankAt_of_le ?_
        unfold parent at hparent
        omega
      refine ⟨hpos, h.descends, fun i hi hstart hne => ?_, fun _ i hi hparent => ?_⟩
      · by_cases hparent : parent i = pos
        · rw [htop i hi hparent]
          exact le_top
        · exact h.ordered i hi hstart hne hparent
      · rw [htop i hi hparent]
        exact le_top

theorem siftup_ordered (hpos : pos < l.length) (h : Sinking (rankAt f l) pos pos) :
    OrderedFrom (rankAt f (siftup lt l pos)) pos := by
  obtain ⟨hleaf, hrising⟩ := sink_rising hlt hpos (Nat.le_add_left _ _) h
  have hlength : (sink lt l.length l pos).1.length = l.length := (sink_perm _ _ _).length_eq
  exact siftdown_ordered hlt (by omega) hleaf.le hrising

theorem heappush_isHeap (h : IsHeap lt l) (a : α) : IsHeap lt (heappush lt l a) := by
  rw [isHeap_iff hlt] at h ⊢
  refine siftdown_ordered hlt (by simp) (Nat.le_succ _)
    ⟨?_, fun i hi _ hne => ?_, fun _ i hi hparent => ?_⟩
  · -- every position is below the root
    induction l.length using Nat.strongRecOn with
    | ind n ih =>
      by_cases hn : n = 0
      · exact ⟨0, hn⟩
      · exact (ih (parent n) (parent_lt (by omega))).child rfl
  · have hold := h i hi (Nat.zero_le _)
    have hlt' := parent_lt hi
    by_cases hlen : i < l.length
    · rw [rankAt, rankAt, getElem?_append_left hlen, getElem?_append_left (hlt'.trans hlen)]
      exact hold
    · rw [rankAt_of_le (i := i) (by simp; omega)]
      exact le_top
  · rw [rankAt_of_le (i := i)]
    · exact le_top
    · have hgt := parent_lt hi
      simp only [length_append, length_singleton]
      omega

theorem heapify_isHeap (l : List α) : IsHeap lt (heapify lt l) := by
  rw [isHeap_iff hlt]
  have hall : ∀ n (l' : List α), n ≤ l'.length / 2 → OrderedFrom (rankAt f l') n →
      OrderedFrom (rankAt f ((List.range n).reverse.foldl (siftup lt) l')) 0 := by
    intro n
    induction n with
    | zero => exact fun _ _ h => h
    | succ n ih =>
      intro l' hn h
      rw [range_succ, reverse_append, reverse_singleton, singleton_append]
      have hlength : (siftup lt l' n).length = l'.length := (siftup_perm _ _).length_eq
      refine ih _ (by omega) (siftup_ordered hlt (by omega)
        ⟨⟨0, rfl⟩, ?_, fun hne => absurd rfl hne⟩)
      intro i hi hstart _ hne
      exact h i hi (by omega)
  refine hall _ l (Nat.le_refl _) fun i hi hstart => ?_
  rw [rankAt_of_le (i := i)]
  · exact le_top
  · unfold parent at hstart
    omega

theorem heappop_isHeap (h : IsHeap lt l)
    (hpop : heappop lt l = some (a, rest)) : IsHeap lt rest := by
  rw [isHeap_iff hlt] at h ⊢
  unfold heappop at hpop
  split at hpop
  · cases hpop
  rename_i b l
  split at hpop
  · obtain ⟨-, rfl⟩ := Prod.mk.inj (Option.some.inj hpop)
    intro i _ _
    exact le_top
  rename_i last hlast
  obtain ⟨-, rfl⟩ := Prod.mk.inj (Option.some.inj hpop)
  obtain ⟨init, rfl⟩ := getLast?_eq_some_iff.mp hlast
  rw [dropLast_concat]
  refine siftup_ordered hlt (Nat.succ_pos _) ⟨⟨0, rfl⟩, fun i hi _ _ hne => ?_,
    fun hne => absurd rfl hne⟩
  have hold := h i hi (Nat.zero_le _)
  have hlt' := parent_lt hi
  -- only the root has changed
  have hsame : ∀ k, 0 < k → k < init.length + 1 →
      rankAt f (last :: init) k = rankAt f (b :: (init ++ [last])) k := by
    intro k hk hlen
    obtain ⟨k, rfl⟩ := Nat.exists_eq_succ_of_ne_zero hk.ne'
    simp only [rankAt, Nat.succ_eq_add_one, getElem?_cons_succ]
    rw [getElem?_append_left (by omega)]
  by_cases hlen : i < init.length + 1
  · rw [hsame i hi hlen, hsame (parent i) (Nat.pos_of_ne_zero hne) (by omega)]
    exact hold
  · rw [rankAt_of_le (i := i) (by simp; omega)]
    exact le_top

/-- The first element of a heap is a least one. -/
theorem IsHeap.head_le (h : IsHeap lt (a :: rest)) : ∀ b ∈ rest, f a ≤ f b := by
  rw [isHeap_iff hlt] at h
  have hroot : ∀ i, rankAt f (a :: rest) 0 ≤ rankAt f (a :: rest) i := by
    intro i
    induction i using Nat.strongRecOn with
    | ind i ih =>
      by_cases hi : i = 0
      · rw [hi]
      · have hpos := Nat.pos_of_ne_zero hi
        exact (ih (parent i) (parent_lt hpos)).trans (h i hpos (Nat.zero_le _))
  intro b hb
  obtain ⟨i, hi, rfl⟩ := mem_iff_getElem.mp hb
  have hle := hroot (i + 1)
  rw [rankAt_of_get (i := i + 1) (getElem?_eq_getElem hi)] at hle
  exact WithTop.coe_le_coe.mp hle

end Order

end Vllm.Library.Heapq
