import Mathlib.Data.List.Chain
import Mathlib.Data.List.Nodup

/-!
# A doubly linked queue with sentinels

A queue of elements that are linked in place: every node knows the node before
and the node after it, and two sentinels close the queue at both ends, so that
an element in the middle is removed without a search. The count of elements is
kept apart from the links.

`Represents q xs` says that the links and the count of `q` are those of the
list `xs`. Each operation comes with a lemma that gives the list after it. All
links are made by `linkNodes`, and its two lemmas carry the proofs:
`isChain_linkNodes` (what was linked is a chain) and
`isChain_linkNodes_of_disjoint` (other chains are untouched).
-/

namespace Vllm.Library

open Function List

/-- A place in the queue: an element or one of the sentinels. -/
inductive Node (α : Type) where
  | head
  | tail
  | elem (a : α)
  deriving DecidableEq, Repr

structure LinkedQueue (α : Type) where
  prev : Node α → Option (Node α)
  next : Node α → Option (Node α)
  size : Nat

namespace LinkedQueue

variable {α : Type} [DecidableEq α] {q : LinkedQueue α} {a : Node α} {l ns : List (Node α)} {x : α}

/-! ## Operations -/

/-- Make `b` the successor of `a`. -/
def link (q : LinkedQueue α) (a b : Node α) : LinkedQueue α :=
  { q with
    next := Function.update q.next a (some b)
    prev := Function.update q.prev b (some a) }

/-- Take the links off an element. -/
def clear (q : LinkedQueue α) (x : α) : LinkedQueue α :=
  { q with
    next := Function.update q.next (.elem x) none
    prev := Function.update q.prev (.elem x) none }

/-- Link each node to the one after it. -/
def linkNodes (q : LinkedQueue α) : List (Node α) → LinkedQueue α
  | a :: b :: rest => linkNodes (q.link a b) (b :: rest)
  | _ => q

/-- The queue of the given elements. -/
def ofList (xs : List α) : LinkedQueue α :=
  linkNodes { prev := fun _ => none, next := fun _ => none, size := xs.length }
    (.head :: xs.map .elem ++ [.tail])

/-- Remove the first element. -/
def popleft (q : LinkedQueue α) : Option (α × LinkedQueue α) :=
  match q.next .head with
  | some (.elem x) =>
    match q.next (.elem x) with
    | none => none
    | some n => some (x, { (q.link .head n).clear x with size := q.size - 1 })
  | _ => none

/-- The loop of `popleftN`: unlink `n` nodes from `curr` on. Returns the
elements and the node after them. -/
def popLoop : Nat → Option (Node α) → LinkedQueue α →
    Option (List α × Option (Node α) × LinkedQueue α)
  | 0, curr, q => some ([], curr, q)
  | n + 1, some (.elem x), q =>
    (popLoop n (q.next (.elem x)) (q.clear x)).map fun r => (x :: r.1, r.2)
  | _ + 1, _, _ => none

/-- Remove the first `n` elements. One element is handled without a loop. -/
def popleftN (q : LinkedQueue α) (n : Nat) : Option (List α × LinkedQueue α) :=
  if n = 0 then some ([], q)
  else if q.size < n then none
  else
    let q := { q with size := q.size - n }
    if n = 1 then
      match q.next .head with
      | some (.elem x) =>
        match q.next (.elem x) with
        | none => some ([x], q.clear x)
        | some nx => some ([x], (q.clear x).link .head nx)
      | _ => none
    else
      match popLoop n (q.next .head) q with
      | some (ret, some curr, q') => some (ret, q'.link .head curr)
      | some (ret, none, q') => some (ret, q')
      | none => none

/-- Remove an element from the middle of the queue. -/
def remove (q : LinkedQueue α) (x : α) : Option (LinkedQueue α) :=
  match q.prev (.elem x), q.next (.elem x) with
  | some p, some n => some { (q.link p n).clear x with size := q.size - 1 }
  | _, _ => none

/-- Put elements at the front. -/
def prependN (q : LinkedQueue α) (xs : List α) : Option (LinkedQueue α) :=
  if xs.isEmpty then some q
  else
    (q.next .head).map fun first =>
      { q.linkNodes (.head :: xs.map .elem ++ [first]) with size := q.size + xs.length }

/-- Put elements at the back. -/
def appendN (q : LinkedQueue α) (xs : List α) : Option (LinkedQueue α) :=
  if xs.isEmpty then some q
  else
    (q.prev .tail).map fun last =>
      { q.linkNodes (last :: xs.map .elem ++ [.tail]) with size := q.size + xs.length }

/-- The elements from `curr` on, read off the links. -/
def readFrom (q : LinkedQueue α) : Nat → Option (Node α) → List α
  | fuel + 1, some (.elem x) => x :: readFrom q fuel (q.next (.elem x))
  | _, _ => []

/-- The elements in order, read off the links. -/
def toList (q : LinkedQueue α) : List α :=
  q.readFrom q.size (q.next .head)

/-! ## Chains -/

/-- `b` is the successor of `a`, seen from both sides. -/
def Link (q : LinkedQueue α) (a b : Node α) : Prop :=
  q.next a = some b ∧ q.prev b = some a

/-- The nodes of a queue that holds `xs`. -/
def nodes (xs : List α) : List (Node α) :=
  .head :: (xs.map .elem ++ [.tail])

/-- The queue holds the list `xs`. -/
structure Represents (q : LinkedQueue α) (xs : List α) : Prop where
  chain : (nodes xs).IsChain q.Link
  nodup : xs.Nodup
  size_eq : q.size = xs.length

omit [DecidableEq α] in
theorem nodes_nodup {xs : List α} : (nodes xs).Nodup ↔ xs.Nodup := by
  have hinj : Function.Injective (Node.elem : α → Node α) := fun _ _ h => Node.elem.inj h
  simp [nodes, nodup_append, nodup_map_iff hinj]

theorem link_self (q : LinkedQueue α) (a b : Node α) : (q.link a b).Link a b := by
  simp [Link, link]

/-- A link that leaves from outside a chain, and does not enter it behind its
first node, does not change it. -/
theorem isChain_link {b : Node α} (h : l.IsChain q.Link) (ha : a ∉ l.dropLast) (hb : b ∉ l.tail) :
    l.IsChain (q.link a b).Link := by
  induction l with
  | nil => exact .nil
  | cons x l ih =>
    cases l with
    | nil => exact .singleton x
    | cons y l =>
      obtain ⟨hxy, hrest⟩ := isChain_cons_cons.mp h
      simp only [dropLast_cons_cons, mem_cons, not_or, tail_cons] at ha hb
      refine isChain_cons_cons.mpr ⟨?_, ih hrest ha.2 (by simpa using hb.2)⟩
      simp only [Link, link, update_of_ne (Ne.symm ha.1), update_of_ne (Ne.symm hb.1)]
      exact hxy

theorem isChain_clear
    (h : l.IsChain q.Link) (hx : Node.elem x ∉ l) : l.IsChain (q.clear x).Link := by
  refine h.imp_of_mem_imp fun a b ha hb hab => ?_
  have hax : a ≠ .elem x := fun h => hx (h ▸ ha)
  have hbx : b ≠ .elem x := fun h => hx (h ▸ hb)
  simpa only [Link, clear, update_of_ne hax, update_of_ne hbx] using hab

theorem isChain_linkNodes_of_disjoint
    (h : l.IsChain q.Link) (hout : ∀ a ∈ ns.dropLast, a ∉ l.dropLast)
    (hin : ∀ b ∈ ns.tail, b ∉ l.tail) : l.IsChain (q.linkNodes ns).Link := by
  induction ns generalizing q with
  | nil => exact h
  | cons a ns ih =>
    cases ns with
    | nil => exact h
    | cons b ns =>
      have hlink := isChain_link h (hout a (by simp)) (hin b (by simp))
      refine ih hlink (fun x hx => hout x ?_) (fun x hx => hin x ?_)
      · exact mem_cons_of_mem a hx
      · exact mem_of_mem_tail hx

/-- Linking the nodes after the end of a chain extends the chain. -/
theorem isChain_linkNodes (h : (l ++ [a]).IsChain q.Link) (hnodup : (l ++ a :: ns).Nodup) :
    (l ++ a :: ns).IsChain (q.linkNodes (a :: ns)).Link := by
  induction ns generalizing q l a with
  | nil => exact h
  | cons b ns ih =>
    have hstep : ((l ++ [a]) ++ [b]).IsChain (q.link a b).Link := by
      have hnodup' : (l ++ [a] ++ b :: ns).Nodup := by simpa using hnodup
      have ha : a ∉ l := fun hmem =>
        (nodup_append.mp hnodup).2.2 a hmem a mem_cons_self rfl
      have hb : b ∉ l ++ [a] := fun hmem =>
        (nodup_append.mp hnodup').2.2 b hmem b mem_cons_self rfl
      have hl := isChain_link h (by simpa using ha)
        fun hmem => hb (mem_of_mem_tail hmem)
      refine hl.append (.singleton b) ?_
      simpa using link_self q a b
    have := ih hstep (by simpa using hnodup)
    simpa [linkNodes] using this

/-! ## The list after an operation -/

section Operations

variable {q : LinkedQueue α} {xs ys : List α} {first : Node α}

theorem linkNodes_size (ns : List (Node α)) (q : LinkedQueue α) :
    (q.linkNodes ns).size = q.size := by
  induction ns generalizing q with
  | nil => rfl
  | cons a ns ih =>
    cases ns with
    | nil => rfl
    | cons b ns => exact ih (q.link a b)

theorem represents_ofList (h : xs.Nodup) : (ofList xs).Represents xs := by
  refine ⟨?_, h, linkNodes_size _ _⟩
  exact isChain_linkNodes (l := []) (.singleton _) (nodes_nodup.mpr h)

/-- Cutting a node out of a chain and joining what is left. -/
theorem isChain_link_of_cut {l₁ l₂ : List (Node α)} {p x n : Node α}
    (h : (l₁ ++ p :: x :: n :: l₂).IsChain q.Link) (hnodup : (l₁ ++ p :: x :: n :: l₂).Nodup) :
    q.next x = some n ∧ q.prev x = some p ∧
      (l₁ ++ p :: n :: l₂).IsChain (q.link p n).Link := by
  obtain ⟨hleft, hpx, hright⟩ := isChain_append_cons_cons.mp h
  obtain ⟨hxn, hright⟩ := isChain_cons_cons.mp hright
  obtain ⟨-, hnodup₂, hdisj⟩ := nodup_append.mp hnodup
  simp only [nodup_cons, mem_cons, not_or] at hnodup₂
  have hp : p ∉ l₁ := fun hmem => hdisj p hmem p (by simp) rfl
  have hn : n ∉ l₁ ++ [p] := by
    simp only [mem_append, mem_singleton, not_or]
    exact ⟨fun hmem => hdisj n hmem n (by simp) rfl, Ne.symm hnodup₂.1.2.1⟩
  refine ⟨hxn.1, hpx.2, isChain_append_cons_cons.mpr ⟨?_, link_self q p n, ?_⟩⟩
  · exact isChain_link hleft (by simpa using hp) fun hmem => hn (mem_of_mem_tail hmem)
  · refine isChain_link hright (fun hmem => ?_) hnodup₂.2.2.1
    rcases mem_cons.mp (dropLast_subset _ hmem) with heq | hmem
    · exact hnodup₂.1.2.1 heq
    · exact hnodup₂.1.2.2 hmem

omit [DecidableEq α] in
/-- The nodes around an element. -/
theorem exists_nodes_eq (xs : List α) (x : α) (ys : List α) :
    ∃ l₁ p n l₂, nodes (xs ++ x :: ys) = l₁ ++ p :: .elem x :: n :: l₂ ∧
      nodes (xs ++ ys) = l₁ ++ p :: n :: l₂ := by
  obtain ⟨l₁, p, hl⟩ : ∃ l₁ p, Node.head :: xs.map Node.elem = l₁ ++ [p] :=
    ⟨_, _, (dropLast_append_getLast (cons_ne_nil _ _)).symm⟩
  obtain ⟨n, l₂, hr⟩ : ∃ n l₂, ys.map Node.elem ++ [Node.tail] = n :: l₂ := by
    cases ys with
    | nil => exact ⟨_, _, rfl⟩
    | cons y ys => exact ⟨_, _, rfl⟩
  refine ⟨l₁, p, n, l₂, ?_, ?_⟩
  · calc nodes (xs ++ x :: ys)
        = (Node.head :: xs.map Node.elem) ++ .elem x :: (ys.map Node.elem ++ [Node.tail]) := by
          simp [nodes]
      _ = l₁ ++ p :: .elem x :: n :: l₂ := by rw [hl, hr]; simp
  · calc nodes (xs ++ ys)
        = (Node.head :: xs.map Node.elem) ++ (ys.map Node.elem ++ [Node.tail]) := by
          simp [nodes]
      _ = l₁ ++ p :: n :: l₂ := by rw [hl, hr]; simp

omit [DecidableEq α] in
theorem exists_nodes_eq_cons (xs : List α) :
    ∃ first l, xs.map Node.elem ++ [Node.tail] = first :: l ∧ nodes xs = .head :: first :: l := by
  cases xs with
  | nil => exact ⟨_, _, rfl, rfl⟩
  | cons x xs => exact ⟨_, _, rfl, rfl⟩

theorem Represents.remove (h : q.Represents (xs ++ x :: ys)) :
    ∃ q', q.remove x = some q' ∧ q'.Represents (xs ++ ys) := by
  obtain ⟨l₁, p, n, l₂, hnodes, hnodes'⟩ := exists_nodes_eq xs x ys
  have hnodup := nodes_nodup.mpr h.nodup
  have hchain := h.chain
  rw [hnodes] at hchain hnodup
  obtain ⟨hnext, hprev, hlink⟩ := isChain_link_of_cut hchain hnodup
  have hperm : (xs ++ x :: ys).Perm (x :: (xs ++ ys)) := perm_middle
  have hx := nodup_cons.mp (hperm.nodup_iff.mp h.nodup)
  have heq : q.remove x = some { (q.link p n).clear x with size := q.size - 1 } := by
    simp only [LinkedQueue.remove, hnext, hprev]
  refine ⟨_, heq, ?_, hx.2, ?_⟩
  · rw [← hnodes'] at hlink
    refine isChain_clear hlink ?_
    simpa [nodes] using hx.1
  · have := h.size_eq
    have hlen := hperm.length_eq
    simp only [length_cons] at hlen
    change q.size - 1 = _
    omega

theorem Represents.popleft (h : q.Represents (x :: xs)) :
    ∃ q', q.popleft = some (x, q') ∧ q'.Represents xs := by
  obtain ⟨n, l, -, hnodes⟩ := exists_nodes_eq_cons xs
  have hsplit : nodes (x :: xs) = [] ++ .head :: .elem x :: n :: l := by
    have := congrArg List.tail hnodes
    simp only [nodes, tail_cons] at this
    simp [nodes, this]
  have hnodup := nodes_nodup.mpr h.nodup
  have hchain := h.chain
  rw [hsplit] at hchain hnodup
  obtain ⟨hnext, hprev, hlink⟩ := isChain_link_of_cut hchain hnodup
  have hhead : q.next .head = some (.elem x) := (isChain_cons_cons.mp hchain).1.1
  have hx := nodup_cons.mp h.nodup
  have heq : q.popleft = some (x, { (q.link .head n).clear x with size := q.size - 1 }) := by
    simp only [LinkedQueue.popleft, hhead, hnext]
  refine ⟨_, heq, ?_, hx.2, ?_⟩
  · rw [← hnodes] at hlink
    exact isChain_clear hlink (by simpa [nodes] using hx.1)
  · rw [h.size_eq, length_cons, Nat.add_sub_cancel]

/-- The loop of `popleftN` reads and unlinks the first elements of a chain. -/
theorem popLoop_eq {c : Node α} (hfirst : (ys.map Node.elem ++ c :: l).head? = some first)
    (h : (ys.map Node.elem ++ c :: l).IsChain q.Link)
    (hnodup : (ys.map Node.elem ++ c :: l).Nodup) :
    ∃ q', popLoop ys.length (some first) q = some (ys, some c, q') ∧
      (c :: l).IsChain q'.Link ∧ q'.size = q.size := by
  induction ys generalizing q first with
  | nil =>
    obtain rfl : c = first := by simpa using hfirst
    exact ⟨q, rfl, h, rfl⟩
  | cons y ys ih =>
    obtain rfl : .elem y = first := by simpa using hfirst
    obtain ⟨hy, hnodup'⟩ := nodup_cons.mp hnodup
    obtain ⟨second, hsecond⟩ : ∃ second, (ys.map Node.elem ++ c :: l).head? = some second := by
      cases ys with
      | nil => exact ⟨_, rfl⟩
      | cons z ys => exact ⟨_, rfl⟩
    have hnext : q.next (.elem y) = some second :=
      (isChain_cons.mp h).1 second hsecond |>.1
    obtain ⟨q', hpop, hchain, hsize⟩ :=
      ih hsecond (isChain_clear (isChain_cons.mp h).2 hy) hnodup'
    refine ⟨q', ?_, hchain, hsize⟩
    simp only [length_cons, popLoop, hnext, hpop, Option.map_some]

theorem isChain_head_link
    (h : (first :: l).IsChain q.Link) (hnodup : (Node.head :: first :: l).Nodup) :
    (Node.head :: first :: l).IsChain (q.link .head first).Link := by
  obtain ⟨hhead, hnodup⟩ := nodup_cons.mp hnodup
  refine isChain_cons_cons.mpr ⟨link_self q _ _, isChain_link h ?_ ?_⟩
  · exact fun hmem => hhead (dropLast_subset _ hmem)
  · exact (nodup_cons.mp hnodup).1

theorem Represents.popleftN (h : q.Represents (ys ++ xs)) :
    ∃ q', q.popleftN ys.length = some (ys, q') ∧ q'.Represents xs := by
  obtain ⟨c, l, hcl, hnodes⟩ := exists_nodes_eq_cons xs
  have hsplit : nodes (ys ++ xs) = .head :: (ys.map Node.elem ++ c :: l) := by
    rw [← hcl]; simp [nodes]
  have hxs : xs.Nodup := (nodup_append.mp h.nodup).2.1
  have hnodup := nodes_nodup.mpr h.nodup
  have hnodup' := hnodes ▸ nodes_nodup.mpr hxs
  have hchain := h.chain
  have hsize : q.size = ys.length + xs.length := by rw [h.size_eq, length_append]
  rw [hsplit] at hchain hnodup
  obtain ⟨hfirst, hrest⟩ := isChain_cons.mp hchain
  have hrestnodup := (nodup_cons.mp hnodup).2
  unfold LinkedQueue.popleftN
  split
  · -- nothing to remove
    rename_i hzero
    obtain rfl := eq_nil_of_length_eq_zero hzero
    exact ⟨q, rfl, h⟩
  rw [if_neg (by omega)]
  set q₀ : LinkedQueue α := { q with size := q.size - ys.length } with hq₀
  split
  · -- one element
    rename_i hone
    obtain ⟨y, rfl⟩ := length_eq_one_iff.mp hone
    have hy : q₀.next .head = some (.elem y) := (hfirst _ rfl).1
    have hc : q₀.next (.elem y) = some c := ((isChain_cons.mp hrest).1 c rfl).1
    simp only [hy, hc]
    refine ⟨_, rfl, ?_, hxs, ?_⟩
    · rw [hnodes]
      refine isChain_head_link ?_ hnodup'
      exact isChain_clear (isChain_cons.mp hrest).2
        (nodup_cons.mp hrestnodup).1
    · change q.size - [y].length = xs.length
      omega
  · -- the loop
    obtain ⟨first, hf⟩ : ∃ first, (ys.map Node.elem ++ c :: l).head? = some first := by
      cases ys with
      | nil => exact ⟨_, rfl⟩
      | cons y ys => exact ⟨_, rfl⟩
    have hnext : q₀.next .head = some first := (hfirst first hf).1
    obtain ⟨q', hpop, hchain', hsize'⟩ := popLoop_eq (q := q₀) hf hrest hrestnodup
    simp only [hnext, hpop]
    refine ⟨_, rfl, ?_, hxs, ?_⟩
    · rw [hnodes]
      exact isChain_head_link hchain' hnodup'
    · change q'.size = xs.length
      rw [hsize']
      change q.size - ys.length = xs.length
      omega

theorem Represents.prependN (h : q.Represents xs) (hnodup : (ys ++ xs).Nodup) :
    ∃ q', q.prependN ys = some q' ∧ q'.Represents (ys ++ xs) := by
  unfold LinkedQueue.prependN
  split
  · rename_i hempty
    obtain rfl := List.isEmpty_iff.mp hempty
    exact ⟨q, rfl, h⟩
  obtain ⟨c, l, hcl, hnodes⟩ := exists_nodes_eq_cons xs
  have hsplit : nodes (ys ++ xs) = (.head :: ys.map Node.elem) ++ c :: l := by
    rw [← hcl]; simp [nodes]
  have hchain := h.chain
  rw [hnodes] at hchain
  obtain ⟨hhead, hrest⟩ := isChain_cons_cons.mp hchain
  have hn := nodes_nodup.mpr hnodup
  rw [hsplit] at hn
  simp only [hhead.1, Option.map_some]
  refine ⟨_, rfl, ?_, hnodup, ?_⟩
  · rw [hsplit]
    refine isChain_split.mpr ⟨?_, ?_⟩
    · refine isChain_linkNodes (l := []) (.singleton _) (hn.sublist ?_)
      exact List.Sublist.append_left (cons_sublist_cons.mpr (nil_sublist l))
        (Node.head :: ys.map Node.elem)
    obtain ⟨-, hn₂, hdisj⟩ := nodup_append.mp hn
    refine isChain_linkNodes_of_disjoint hrest ?_ ?_
    · rintro a ha hmem
      rw [dropLast_concat] at ha
      exact hdisj a ha a (dropLast_subset _ hmem) rfl
    · rintro b hb hmem
      simp only [cons_append, tail_cons, mem_append, mem_singleton] at hb
      rcases hb with hb | rfl
      · exact hdisj b (mem_cons_of_mem _ hb) b (mem_cons_of_mem _ hmem) rfl
      · exact (nodup_cons.mp hn₂).1 hmem
  · rw [h.size_eq, length_append, Nat.add_comm]

theorem Represents.appendN (h : q.Represents xs) (hnodup : (xs ++ ys).Nodup) :
    ∃ q', q.appendN ys = some q' ∧ q'.Represents (xs ++ ys) := by
  unfold LinkedQueue.appendN
  split
  · rename_i hempty
    obtain rfl := List.isEmpty_iff.mp hempty
    exact ⟨q, rfl, by simpa using h⟩
  obtain ⟨l, last, hl⟩ : ∃ l last, Node.head :: xs.map Node.elem = l ++ [last] :=
    ⟨_, _, (dropLast_append_getLast (cons_ne_nil _ _)).symm⟩
  have hnodes : nodes xs = l ++ last :: [.tail] := by
    calc nodes xs = (Node.head :: xs.map Node.elem) ++ [.tail] := rfl
      _ = l ++ last :: [.tail] := by rw [hl]; simp
  have hsplit : nodes (xs ++ ys) = l ++ last :: (ys.map Node.elem ++ [.tail]) := by
    calc nodes (xs ++ ys)
        = (Node.head :: xs.map Node.elem) ++ (ys.map Node.elem ++ [.tail]) := by simp [nodes]
      _ = l ++ last :: (ys.map Node.elem ++ [.tail]) := by rw [hl]; simp
  have hchain := h.chain
  rw [hnodes] at hchain
  obtain ⟨hleft, hlast, -⟩ := isChain_append_cons_cons.mp hchain
  simp only [hlast.2, Option.map_some]
  refine ⟨_, rfl, ?_, hnodup, ?_⟩
  · rw [hsplit]
    exact isChain_linkNodes hleft (hsplit ▸ nodes_nodup.mpr hnodup)
  · rw [h.size_eq, length_append]

omit [DecidableEq α] in
/-- Reading the links gives the list back. -/
theorem Represents.toList_eq (h : q.Represents xs) : q.toList = xs := by
  have hread : ∀ (ys : List α) (first : Node α),
      (ys.map Node.elem ++ [Node.tail]).head? = some first →
      (ys.map Node.elem ++ [Node.tail]).IsChain q.Link →
      q.readFrom ys.length (some first) = ys := by
    intro ys
    induction ys with
    | nil => exact fun _ _ _ => rfl
    | cons y ys ih =>
      intro first hfirst hchain
      obtain rfl : .elem y = first := by simpa using hfirst
      obtain ⟨hlink, hrest⟩ := isChain_cons.mp hchain
      obtain ⟨second, l, hl, -⟩ := exists_nodes_eq_cons ys
      have hsecond : (ys.map Node.elem ++ [Node.tail]).head? = some second := by rw [hl]; rfl
      rw [length_cons, readFrom, (hlink second hsecond).1, ih second hsecond hrest]
  obtain ⟨hlink, hrest⟩ := isChain_cons.mp h.chain
  obtain ⟨first, l, hl, -⟩ := exists_nodes_eq_cons xs
  have hfirst : (xs.map Node.elem ++ [Node.tail]).head? = some first := by rw [hl]; rfl
  rw [toList, h.size_eq, (hlink first hfirst).1]
  exact hread xs first hfirst hrest

end Operations

end LinkedQueue

end Vllm.Library
