import Vllm.Library.Dict
import Vllm.Library.Recency

/-!
# Key-replicated caches of multi-modal items

`LRUCache` (`utils/cache.py`, over `cachetools.LRUCache`), and the caches of
`multimodal/cache/lru.py`: the sender cache of the front-end, which holds the size and the
prompt updates of an item, and the receiver cache of the engine, which holds the item.
No key is pinned; the hit counters are left out. Sizes are integers, so that the capacity
is the integer part of the one in the source.

`cachetools` is no part of the repository. What is taken from its documentation is how an item is
set: a value above the capacity is refused, and otherwise `popitem` is called until the value fits
(`putIfFits`, with `evicted` and `makeRoom`).
-/

namespace Vllm.Multimodal

open Library List

inductive Fault
  | assertionError
  | valueError
  | indexError
  deriving DecidableEq, Repr

/-! ## The LRU cache -/

/-- The items are listed least recently used first. -/
structure LRUCache (K V : Type) where
  capacity : Nat
  getsizeof : V → Nat
  items : Dict K V
  fits : items.total (fun _ v => getsizeof v) ≤ capacity

namespace LRUCache

variable {K V : Type} {needed : Nat}

def new (capacity : Nat) (getsizeof : V → Nat) : LRUCache K V where
  capacity := capacity
  getsizeof := getsizeof
  items := .empty
  fits := Nat.zero_le _

/-- The items that `popitem` leaves once `needed` more fits. -/
def evicted (c : LRUCache K V) (needed : Nat) : Dict K V where
  entries := Recency.evict (fun e => c.getsizeof e.2) c.capacity needed c.items.entries
  nodup := c.items.nodup.sublist
    ((Recency.evict_suffix _ _ _ _).sublist.map Prod.fst)

theorem total_evicted {c : LRUCache K V} (h : needed ≤ c.capacity) :
    (c.evicted needed).total (fun _ v => c.getsizeof v) + needed ≤ c.capacity :=
  Recency.load_evict (fun e : K × V => c.getsizeof e.2) c.capacity h c.items.entries

theorem evict_map_keys {size : K → Nat} {entries : List (K × V)}
    {getsizeof : V → Nat} {capacity : Nat}
    (h : ∀ e ∈ entries, getsizeof e.2 = size e.1) :
    (Recency.evict (fun e => getsizeof e.2) capacity needed entries).map Prod.fst =
      Recency.evict size capacity needed (entries.map Prod.fst) := by
  induction entries with
  | nil => rfl
  | cons e entries ih =>
    have hload : Recency.load (fun e : K × V => getsizeof e.2) (e :: entries) =
        Recency.load size ((e :: entries).map Prod.fst) := by
      unfold Recency.load
      rw [map_map]
      exact congrArg List.sum (map_congr_left h)
    rw [map_cons, Recency.evict, Recency.evict, hload, map_cons]
    split
    · exact ih fun e' he' => h e' (mem_cons_of_mem e he')
    · rfl

variable [DecidableEq K]

def contains (c : LRUCache K V) (k : K) : Bool := (c.items.get? k).isSome

def touch (c : LRUCache K V) (k : K) : LRUCache K V where
  __ := c
  items := c.items.moveToEnd k
  fits := by
    unfold Dict.moveToEnd
    split
    · exact c.fits
    next v hv =>
      rw [Dict.total_insert_of_none _ _ (Dict.get?_erase_self _ _), Dict.total_erase_add _ hv]
      exact c.fits

/-- `get`, which also makes the key the most recent one. -/
def get (c : LRUCache K V) (k : K) : Option V × LRUCache K V :=
  (c.items.get? k, c.touch k)

/-- `pop(key, None)`. -/
def pop (c : LRUCache K V) (k : K) : LRUCache K V where
  __ := c
  items := c.items.erase k
  fits := (Dict.total_erase_le _ _ _).trans c.fits

/-- The items among which a value of the given size is written: without the oldest ones
if the key is new or grows. -/
def makeRoom (c : LRUCache K V) (k : K) (size : Nat) : Dict K V :=
  if ((c.items.get? k).all fun v => decide (c.getsizeof v < size)) then c.evicted size
  else c.items

/-- `put_if_fits`. -/
def putIfFits (c : LRUCache K V) (k : K) (v : V) : LRUCache K V :=
  if h : c.capacity < c.getsizeof v then c
  else
    { c with
      items := ((c.makeRoom k (c.getsizeof v)).erase k).insert k v
      fits := by
        rw [Dict.total_insert_of_none _ _ (Dict.get?_erase_self _ _)]
        unfold makeRoom
        split
        · exact (Nat.add_le_add_right (Dict.total_erase_le _ _ _) _).trans
            (total_evicted (not_lt.mp h))
        next hkeep =>
          cases hget : c.items.get? k with
          | none => simp [hget] at hkeep
          | some old =>
            have hle : c.getsizeof v ≤ c.getsizeof old := by simpa [hget] using hkeep
            exact (Nat.add_le_add_left hle _).trans
              ((Dict.total_erase_add (fun _ v => c.getsizeof v) hget).trans_le c.fits) }

/-! ### Keys in eviction order -/

/-- The keys of the cache, least recently used first. -/
def order (c : LRUCache K V) : List K := c.items.keys

/-- The size of each key is the one its value was stored with. -/
def Sized (c : LRUCache K V) (size : K → Nat) : Prop :=
  ∀ k v, c.items.get? k = some v → c.getsizeof v = size k

variable {c : LRUCache K V} {k : K} {v : V} {size : K → Nat}

theorem contains_iff : c.contains k = true ↔ k ∈ c.order := Dict.mem_keys_iff.symm

theorem contains_eq (c : LRUCache K V) (k : K) : c.contains k = decide (k ∈ c.order) := by
  by_cases hk : k ∈ c.order
  · simp [hk, contains_iff.mpr hk]
  · simpa [hk] using mt contains_iff.mp hk

theorem load_order (h : c.Sized size) :
    Recency.load size c.order = c.items.total fun _ v => c.getsizeof v := by
  rw [← Dict.total_congr fun k v hget => (h k v hget).symm]
  simp [Recency.load, order, Dict.keys, Dict.total, Function.comp_def]

theorem held (h : c.Sized size) : Recency.Held size c.capacity c.order :=
  ⟨c.items.nodup, (load_order h).trans_le c.fits⟩

@[simp] theorem get?_touch (c : LRUCache K V) (k k' : K) :
    (c.touch k).items.get? k' = c.items.get? k' :=
  Dict.get?_moveToEnd c.items k k'

theorem order_touch (c : LRUCache K V) (k : K) : (c.touch k).order = Recency.touch c.order k := by
  show (c.items.moveToEnd k).keys = _
  unfold Dict.moveToEnd Recency.touch
  cases hget : c.items.get? k with
  | none =>
    have hout : k ∉ c.order := by simp [← contains_iff, contains, hget]
    rw [if_neg hout]
    rfl
  | some v =>
    have hin : k ∈ c.order := by simp [← contains_iff, contains, hget]
    have herased : k ∉ (c.items.erase k).keys := by simp [Dict.mem_keys_iff]
    rw [if_pos hin, Dict.keys_insert_of_notMem herased, Dict.keys_erase]
    rfl

theorem Sized.touch (h : c.Sized size) (k : K) : (c.touch k).Sized size := fun k' v' hget =>
  h k' v' (by simpa using hget)

/-- A key that is not there is added behind the ones that are kept. -/
theorem order_putIfFits (h : c.Sized size) (hk : c.items.get? k = none)
    (hv : c.getsizeof v = size k) :
    (c.putIfFits k v).order = Recency.insert size c.capacity c.order k := by
  unfold Recency.insert
  split
  next hlt => rw [putIfFits, dif_pos (hv ▸ hlt)]
  next hle =>
    have hroom : c.makeRoom k (size k) = c.evicted (size k) := by
      simp [makeRoom, hk]
    have hkeys : (c.evicted (size k)).keys =
        Recency.evict size c.capacity (size k) c.order :=
      evict_map_keys fun e he => h e.1 e.2 (Dict.mem_entries_iff.mp he)
    have hout : k ∉ (c.evicted (size k)).keys := by
      rw [hkeys]
      intro hin
      have := (Recency.evict_suffix size c.capacity (size k) c.order).subset hin
      rw [← contains_iff, contains, hk] at this
      cases this
    have herased : k ∉ ((c.evicted (size k)).erase k).keys := by simp [Dict.mem_keys_iff]
    rw [putIfFits, dif_neg (hv ▸ hle)]
    show (((c.makeRoom k (c.getsizeof v)).erase k).insert k v).keys = _
    rw [hv, hroom, Dict.keys_insert_of_notMem herased, Dict.keys_erase, erase_of_not_mem hout,
      hkeys]

/-- What is stored after a write was there before, or is what was written. -/
theorem get?_putIfFits {k' : K} {v' : V} (hget : (c.putIfFits k v).items.get? k' = some v') :
    c.items.get? k' = some v' ∨ (k' = k ∧ v' = v) := by
  unfold putIfFits at hget
  split at hget
  · exact .inl hget
  rw [Dict.get?_insert] at hget
  split at hget
  next hk => exact .inr ⟨hk, (Option.some.inj hget).symm⟩
  next hk =>
    rw [Dict.get?_erase_of_ne _ hk, makeRoom] at hget
    split at hget
    · rw [← Dict.mem_entries_iff] at hget
      exact .inl (Dict.mem_entries_iff.mp
        ((Recency.evict_suffix _ _ _ _).subset hget))
    · exact .inl hget

@[simp] theorem capacity_putIfFits (c : LRUCache K V) (k : K) (v : V) :
    (c.putIfFits k v).capacity = c.capacity := by
  unfold putIfFits
  split <;> rfl

@[simp] theorem getsizeof_putIfFits (c : LRUCache K V) (k : K) (v : V) :
    (c.putIfFits k v).getsizeof = c.getsizeof := by
  unfold putIfFits
  split <;> rfl

theorem Sized.putIfFits (h : c.Sized size) (hv : c.getsizeof v = size k) :
    (c.putIfFits k v).Sized size := by
  intro k' v' hget
  rw [getsizeof_putIfFits]
  rcases get?_putIfFits hget with hold | ⟨rfl, rfl⟩
  · exact h k' v' hold
  · exact hv

end LRUCache

/-! ## The two caches -/

structure ResolvedPromptUpdate (P : Type) where
  itemIdx : Nat
  content : P
  deriving DecidableEq, Repr

structure MultiModalProcessorCacheItemMetadata (P : Type) where
  itemSize : Nat
  promptUpdates : List (ResolvedPromptUpdate P)
  deriving DecidableEq, Repr

variable {H I P : Type}

/-- A processed item with its prompt updates. -/
abbrev ProcessedItem (I P : Type) := I × List (ResolvedPromptUpdate P)

/-- `LruKeyReplicatedSenderCache`. -/
abbrev SenderCache (H P : Type) := LRUCache H (MultiModalProcessorCacheItemMetadata P)

/-- `LruKeyReplicatedReceiverCache`. -/
abbrev ReceiverCache (H I : Type) := LRUCache H I

namespace SenderCache

variable [DecidableEq H]

def new (capacity : Nat) : SenderCache H P := LRUCache.new capacity (·.itemSize)

/-- `get_cached_item`: the sender cache keeps no payload. -/
def getCachedItem (_cache : SenderCache H P) (_mmHash : H) : Option (ProcessedItem I P) := none

/-- `get_and_update_item`; `itemSize` is `MultiModalCache.get_item_size`. -/
def getAndUpdateItem (itemSize : I → Nat) (cache : SenderCache H P)
    (mmItem : Option (ProcessedItem I P)) (mmHash : H) :
    Except Fault ((Option I × List (ResolvedPromptUpdate P)) × SenderCache H P) :=
  match cache.get mmHash, mmItem with
  | (some cachedItem, cache), _ => .ok ((none, cachedItem.promptUpdates), cache)
  | (none, _), none => .error .assertionError
  | (none, cache), some (item, promptUpdates) =>
    .ok ((some item, promptUpdates), cache.putIfFits mmHash ⟨itemSize item, promptUpdates⟩)

end SenderCache

/-- What the engine reads of a `MultiModalFeatureSpec`. -/
structure MultiModalFeatureSpec (H I : Type) where
  mmHash : H
  data : Option I

namespace ReceiverCache

variable [DecidableEq H]

def new (capacity : Nat) (itemSize : I → Nat) : ReceiverCache H I := LRUCache.new capacity itemSize

/-- `get_and_update_item`; `none` for `MultiModalCacheMissError`. -/
def getAndUpdateItem (cache : ReceiverCache H I) (mmItem : Option I) (mmHash : H) :
    Option I × ReceiverCache H I :=
  match mmItem with
  | some item => (some item, (cache.pop mmHash).putIfFits mmHash item)
  | none => cache.get mmHash

/-- One feature of the loop of `get_and_update_features`: the data so far, and the hashes
that are missing. -/
def updateFeature (acc : List I × List H × ReceiverCache H I)
    (feature : MultiModalFeatureSpec H I) : List I × List H × ReceiverCache H I :=
  let (data, missing, cache) := acc
  match getAndUpdateItem cache feature.data feature.mmHash with
  | (some item, cache) => (data ++ [item], missing, cache)
  | (none, cache) => (data, missing ++ [feature.mmHash], cache)

end ReceiverCache

end Vllm.Multimodal
