import Mathlib.Algebra.BigOperators.Group.List.Basic
import Mathlib.Algebra.GroupWithZero.Nat
import Mathlib.Data.List.Nodup

/-!
# Insertion-ordered dictionaries

A dictionary is a list of pairs with one pair for each key, oldest key first.
Writing a key that is there keeps its place. `total` adds a weight over the pairs,
and the `total_*` lemmas say how the three writes change it.
-/

namespace Vllm.Library

open List

structure Dict (K V : Type) where
  entries : List (K × V)
  nodup : (entries.map Prod.fst).Nodup

namespace Dict

variable {K V : Type} {d d' : Dict K V} {e : K × V}

def empty : Dict K V := ⟨[], List.nodup_nil⟩

def keys (d : Dict K V) : List K := d.entries.map Prod.fst

/-- The sum of a weight over all pairs. -/
def total (f : K → V → Nat) (d : Dict K V) : Nat :=
  (d.entries.map fun e => f e.1 e.2).sum

@[simp] theorem total_empty (f : K → V → Nat) : (empty : Dict K V).total f = 0 := rfl

/-- `popitem(last=False)`, `n` times. -/
def dropOldest (d : Dict K V) (n : Nat) : Dict K V where
  entries := d.entries.drop n
  nodup := d.nodup.sublist ((List.drop_sublist n d.entries).map Prod.fst)

theorem ext_entries (h : d.entries = d'.entries) : d = d' := by
  cases d'
  subst h
  rfl

theorem eq_of_mem {e' : K × V} (he : e ∈ d.entries) (he' : e' ∈ d.entries)
    (hkey : e.1 = e'.1) : e = e' :=
  inj_on_of_nodup_map d.nodup he he' hkey

variable [DecidableEq K] {k k' : K} {v : V}

def get? (d : Dict K V) (k : K) : Option V :=
  (d.entries.find? fun e => e.1 = k).map Prod.snd

/-- The pair of `k`, at its old place or else at the end. -/
def insert (d : Dict K V) (k : K) (v : V) : Dict K V :=
  if h : k ∈ d.keys then
    { entries := d.entries.map fun e => if e.1 = k then (k, v) else e
      nodup := by
        have hkeys : (d.entries.map fun e => if e.1 = k then (k, v) else e).map Prod.fst =
            d.entries.map Prod.fst := by
          rw [List.map_map]
          refine List.map_congr_left fun e _ => ?_
          by_cases hk : e.1 = k <;> simp [hk]
        rw [hkeys]
        exact d.nodup }
  else
    { entries := d.entries ++ [(k, v)]
      nodup := by
        rw [List.map_append, List.nodup_append']
        exact ⟨d.nodup, List.nodup_singleton k, by simpa [keys] using h⟩ }

def erase (d : Dict K V) (k : K) : Dict K V where
  entries := d.entries.filter fun e => e.1 ≠ k
  nodup := d.nodup.sublist (List.filter_sublist.map Prod.fst)

/-- `move_to_end`, which leaves a dictionary without the key as it is. -/
def moveToEnd (d : Dict K V) (k : K) : Dict K V :=
  match d.get? k with
  | none => d
  | some v => (d.erase k).insert k v

theorem mem_entries_iff : (k, v) ∈ d.entries ↔ d.get? k = some v := by
  unfold get?
  constructor
  · intro hmem
    cases hfind : d.entries.find? fun e => e.1 = k with
    | none => simpa using find?_eq_none.mp hfind _ hmem
    | some e =>
      have hkey : e.1 = k := by simpa using find?_some hfind
      have heq : e = (k, v) := eq_of_mem (mem_of_find?_eq_some hfind) hmem hkey
      simp [heq]
  · intro hget
    obtain ⟨e, hfind, hsnd⟩ := Option.map_eq_some_iff.mp hget
    have hkey : e.1 = k := by simpa using find?_some hfind
    have heq : e = (k, v) := Prod.ext hkey hsnd
    exact heq ▸ mem_of_find?_eq_some hfind

theorem mem_keys_iff : k ∈ d.keys ↔ (d.get? k).isSome := by
  rw [keys, mem_map, Option.isSome_iff_exists]
  constructor
  · rintro ⟨⟨k', v⟩, hmem, rfl⟩
    exact ⟨v, mem_entries_iff.mp hmem⟩
  · rintro ⟨v, hget⟩
    exact ⟨(k, v), mem_entries_iff.mpr hget, rfl⟩

@[simp] theorem get?_empty (k : K) : (empty : Dict K V).get? k = none := rfl

theorem get?_insert (d : Dict K V) (k k' : K) (v : V) :
    (d.insert k v).get? k' = if k' = k then some v else d.get? k' := by
  refine Option.ext fun w => ?_
  rw [← mem_entries_iff]
  by_cases hkey : k' = k
  · subst hkey
    rw [if_pos rfl]
    unfold insert
    split
    · next hin =>
      obtain ⟨e, hmem, hfst⟩ := mem_map.mp hin
      constructor
      · intro h
        obtain ⟨e', _, heq⟩ := mem_map.mp h
        by_cases hk : e'.1 = k' <;> simp_all
      · intro h
        cases h
        exact mem_map.mpr ⟨e, hmem, by simp [hfst]⟩
    · next hout =>
      have hnone : (k', w) ∉ d.entries := fun h => hout (mem_map.mpr ⟨_, h, rfl⟩)
      simp [hnone, eq_comm]
  · rw [if_neg hkey, ← mem_entries_iff]
    unfold insert
    split
    · constructor
      · intro h
        obtain ⟨e', hmem, heq⟩ := mem_map.mp h
        by_cases hk : e'.1 = k
        · rw [if_pos hk] at heq
          exact absurd (congrArg Prod.fst heq).symm hkey
        · rw [if_neg hk] at heq
          exact heq ▸ hmem
      · intro h
        exact mem_map.mpr ⟨_, h, by simp [hkey]⟩
    · simp [hkey]

@[simp] theorem get?_insert_self (d : Dict K V) (k : K) (v : V) :
    (d.insert k v).get? k = some v := by
  rw [get?_insert, if_pos rfl]

theorem get?_insert_of_ne (d : Dict K V) (v : V) (h : k' ≠ k) :
    (d.insert k v).get? k' = d.get? k' := by
  rw [get?_insert, if_neg h]

theorem get?_erase (d : Dict K V) (k k' : K) :
    (d.erase k).get? k' = if k' = k then none else d.get? k' := by
  refine Option.ext fun w => ?_
  rw [← mem_entries_iff]
  by_cases hkey : k' = k
  · simp [erase, hkey]
  · simp [erase, hkey, mem_entries_iff]

@[simp] theorem get?_erase_self (d : Dict K V) (k : K) : (d.erase k).get? k = none := by
  rw [get?_erase, if_pos rfl]

theorem get?_erase_eq_some : (d.erase k).get? k' = some v ↔ k' ≠ k ∧ d.get? k' = some v := by
  rw [get?_erase]
  split <;> simp_all

theorem get?_erase_of_ne (d : Dict K V) (h : k' ≠ k) : (d.erase k).get? k' = d.get? k' := by
  rw [get?_erase, if_neg h]

/-- Sets the value of a key, or drops it. -/
def put (d : Dict K V) (k : K) : Option V → Dict K V
  | some v => d.insert k v
  | none => d.erase k

theorem get?_put (d : Dict K V) (k k' : K) (o : Option V) :
    (d.put k o).get? k' = if k' = k then o else d.get? k' := by
  cases o with
  | none => exact d.get?_erase k k'
  | some v => exact d.get?_insert k k' v

theorem keys_insert_of_notMem (h : k ∉ d.keys) (v : V) : (d.insert k v).keys = d.keys ++ [k] := by
  rw [insert, dif_neg h]
  simp [keys]

theorem keys_erase (d : Dict K V) (k : K) : (d.erase k).keys = d.keys.erase k := by
  have hnodup : d.keys.Nodup := d.nodup
  rw [hnodup.erase_eq_filter, keys, keys, filter_map]
  refine congrArg _ (filter_congr fun e _ => ?_)
  by_cases hk : e.1 = k <;> simp [hk]

theorem get?_eq_none_of_notMem (h : k ∉ d.keys) : d.get? k = none := by
  simpa [mem_keys_iff] using h

theorem total_erase_add (f : K → V → Nat)
    (h : d.get? k = some v) : (d.erase k).total f + f k v = d.total f := by
  have hmem : (k, v) ∈ d.entries := mem_entries_iff.mpr h
  obtain ⟨l, r, hlr⟩ := append_of_mem hmem
  have hnodup := d.nodup
  rw [hlr, map_append, nodup_append'] at hnodup
  obtain ⟨-, hright, hdisjoint⟩ := hnodup
  -- no other pair has the key, so erasing takes out exactly this one
  have hl : l.filter (fun e => e.1 ≠ k) = l := by
    refine filter_eq_self.mpr fun e he => ?_
    have hne : e.1 ≠ k := fun heq =>
      hdisjoint (mem_map.mpr ⟨e, he, heq⟩) mem_cons_self
    simpa using hne
  have hr : r.filter (fun e => e.1 ≠ k) = r := by
    refine filter_eq_self.mpr fun e he => ?_
    have hne : e.1 ≠ k := fun heq =>
      (nodup_cons.mp hright).1 (mem_map.mpr ⟨e, he, heq⟩)
    simpa using hne
  have herase : (d.erase k).entries = l ++ r := by
    show d.entries.filter (fun e => e.1 ≠ k) = l ++ r
    rw [hlr, filter_append, hl, filter_cons_of_neg (by simp), hr]
  rw [total, total, herase, hlr]
  simp only [map_append, map_cons, sum_append, sum_cons]
  omega

theorem erase_of_get?_eq_none (h : d.get? k = none) : d.erase k = d := by
  refine ext_entries (filter_eq_self.mpr fun e he => ?_)
  have hne : e.1 ≠ k := fun heq => by
    rw [← heq, mem_entries_iff.mp he] at h
    cases h
  simpa using hne

theorem total_erase_le (f : K → V → Nat) (d : Dict K V) (k : K) :
    (d.erase k).total f ≤ d.total f := by
  cases hget : d.get? k with
  | none => exact Nat.le_of_eq (congrArg (total f) (erase_of_get?_eq_none hget))
  | some v =>
    rw [← total_erase_add f hget]
    exact Nat.le_add_right _ _

theorem total_insert_of_none (f : K → V → Nat) (v : V)
    (h : d.get? k = none) : (d.insert k v).total f = d.total f + f k v := by
  have hout : k ∉ d.keys := by simp [mem_keys_iff, h]
  simp [insert, hout, total]

/-- A weight of the key alone adds up to the same on any two dictionaries that hold
the same keys. -/
theorem total_congr_keys {W : Type} (d : Dict K V) (d' : Dict K W) (f : K → Nat)
    (h : ∀ k, (d.get? k).isSome ↔ (d'.get? k).isSome) :
    d.total (fun k _ => f k) = d'.total (fun k _ => f k) := by
  have hperm : d.keys.Perm d'.keys := by
    refine (perm_ext_iff_of_nodup d.nodup d'.nodup).mpr fun k => ?_
    exact (mem_keys_iff.trans (h k)).trans mem_keys_iff.symm
  have hsum := (hperm.map f).sum_eq
  simpa [keys, total, Function.comp_def] using hsum

/-- Two weights that agree on the pairs of the dictionary have one total. -/
theorem total_congr {f g : K → V → Nat}
    (h : ∀ k v, d.get? k = some v → f k v = g k v) : d.total f = d.total g := by
  unfold total
  congr 1
  refine map_congr_left fun e he => ?_
  exact h e.1 e.2 (mem_entries_iff.mp he)

/-! ### Entries up to their order -/

/-- The pairs of a dictionary, given by its lookups. -/
theorem perm_entries_iff {l : List (K × V)} (hnodup : (l.map Prod.fst).Nodup) :
    d.entries.Perm l ↔ ∀ k v, d.get? k = some v ↔ (k, v) ∈ l := by
  constructor
  · intro hperm k v
    rw [← mem_entries_iff]
    exact hperm.mem_iff
  · intro h
    refine (perm_ext_iff_of_nodup (List.Nodup.of_map _ d.nodup)
      (List.Nodup.of_map _ hnodup)).mpr fun e => ?_
    exact mem_entries_iff.trans (h e.1 e.2)

theorem perm_of_get?_eq (h : ∀ k, d.get? k = d'.get? k) : d.entries.Perm d'.entries :=
  (perm_entries_iff d'.nodup).mpr fun k v => by rw [h, mem_entries_iff]

theorem perm_cons_erase (h : d.get? k = some v) :
    d.entries.Perm ((k, v) :: (d.erase k).entries) := by
  have hnodup : (((k, v) :: (d.erase k).entries).map Prod.fst).Nodup := by
    refine nodup_cons.mpr ⟨fun hmem => ?_, (d.erase k).nodup⟩
    have hkey : k ∈ (d.erase k).keys := hmem
    simp [mem_keys_iff] at hkey
  refine (perm_entries_iff hnodup).mpr fun k' v' => ?_
  rw [mem_cons, mem_entries_iff, get?_erase]
  by_cases hk : k' = k
  · subst hk
    simp [h, eq_comm]
  · simp [hk]

theorem insert_perm_cons_erase (d : Dict K V) (k : K) (v : V) :
    (d.insert k v).entries.Perm ((k, v) :: (d.erase k).entries) := by
  refine (perm_cons_erase (d.get?_insert_self k v)).trans (List.Perm.cons _ ?_)
  refine perm_of_get?_eq fun k' => ?_
  rw [get?_erase, get?_erase, get?_insert]
  split <;> rfl

theorem insert_perm_cons (h : d.get? k = none) (v : V) :
    (d.insert k v).entries.Perm ((k, v) :: d.entries) := by
  refine (d.insert_perm_cons_erase k v).trans (List.Perm.cons _ ?_)
  refine perm_of_get?_eq fun k' => ?_
  rw [get?_erase]
  split
  · next hk => rw [hk, h]
  · rfl

@[simp] theorem get?_moveToEnd (d : Dict K V) (k k' : K) : (d.moveToEnd k).get? k' = d.get? k' := by
  unfold moveToEnd
  split
  · rfl
  rename_i v hv
  rw [get?_insert, get?_erase]
  split
  · next hk => rw [hk, hv]
  · rfl

theorem erase_head {rest : List (K × V)}
    (h : d.entries = e :: rest) : (d.erase e.1).entries = rest := by
  have hnodup := d.nodup
  rw [h, map_cons, nodup_cons] at hnodup
  show d.entries.filter (fun e' => e'.1 ≠ e.1) = rest
  rw [h, filter_cons_of_neg (by simp)]
  refine filter_eq_self.mpr fun e' he' => ?_
  have hne : e'.1 ≠ e.1 := fun heq => hnodup.1 (mem_map.mpr ⟨e', he', heq⟩)
  simpa using hne

/-! ### Keys after an update -/

theorem keys_insert_of_mem (h : k ∈ d.keys) (v : V) : (d.insert k v).keys = d.keys := by
  rw [insert, dif_pos h, keys, map_map]
  refine map_congr_left fun e _ => ?_
  by_cases hk : e.1 = k <;> simp [hk]

theorem mem_keys_insert : k' ∈ (d.insert k v).keys ↔ k' = k ∨ k' ∈ d.keys := by
  rw [mem_keys_iff, mem_keys_iff, get?_insert]
  by_cases h : k' = k <;> simp [h]

theorem mem_keys_erase : k' ∈ (d.erase k).keys ↔ k' ≠ k ∧ k' ∈ d.keys := by
  rw [mem_keys_iff, mem_keys_iff, get?_erase]
  by_cases h : k' = k <;> simp [h]

theorem mem_keys_moveToEnd : k' ∈ (d.moveToEnd k).keys ↔ k' ∈ d.keys := by
  rw [mem_keys_iff, mem_keys_iff, get?_moveToEnd]

theorem length_keys_erase_le (d : Dict K V) (k : K) : (d.erase k).keys.length ≤ d.keys.length := by
  rw [keys_erase]
  exact length_erase_le

theorem length_keys_insert_le (d : Dict K V) (k : K) (v : V) :
    (d.insert k v).keys.length ≤ d.keys.length + 1 := by
  have hperm : (d.insert k v).keys.Perm (k :: (d.erase k).keys) :=
    (d.insert_perm_cons_erase k v).map Prod.fst
  rw [hperm.length_eq]
  exact Nat.succ_le_succ (d.length_keys_erase_le k)

theorem length_keys_moveToEnd (d : Dict K V) (k : K) :
    (d.moveToEnd k).keys.length = d.keys.length :=
  ((perm_of_get?_eq fun k' => d.get?_moveToEnd k k').map Prod.fst).length_eq

end Dict

end Vllm.Library
