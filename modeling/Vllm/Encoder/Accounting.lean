import Vllm.Encoder.CacheManager
import Mathlib.Algebra.Order.BigOperators.Group.List

/-!
# What the encoder cache manager keeps true

`Refs` says who refers to an entry, `Slots` how the two counters add up. Every
method keeps both, and under them no method raises. `features` gives the
multimodal items of each request; an input that holds a reference keeps its item.
-/

namespace Vllm.Encoder

open Library List

variable {R M : Type}

namespace EncoderCacheManager

/-- `r` holds an input with hash `h` that was not freed. -/
def Holds (features : R → List (MultiModalFeature M)) (m : EncoderCacheManager R M) (r : R)
    (h : M) : Prop :=
  ∃ i ∈ m.requestCachedIds r, ∃ f, (features r)[i]? = some f ∧ f.identifier = h

variable [DecidableEq M]

/-- The inputs of `r` that hold a reference to `h`. -/
def heldInputs (features : R → List (MultiModalFeature M)) (m : EncoderCacheManager R M)
    (r : R) (h : M) : List Nat :=
  (m.requestCachedIds r).filter fun i => ((features r)[i]?).any fun f => f.identifier = h

/-- The references: an entry lists exactly the requests that hold one of its inputs. -/
structure Refs (features : R → List (MultiModalFeature M)) (m : EncoderCacheManager R M) :
    Prop where
  mem_iff : ∀ h s, m.cached.get? h = some s → ∀ r, r ∈ s ↔ Holds features m r h
  held : ∀ r, ∀ i ∈ m.requestCachedIds r,
    ∃ f, (features r)[i]? = some f ∧ (m.cached.get? f.identifier).isSome
  nodup : ∀ r, (m.requestCachedIds r).Nodup
  hashRefs : ∀ r h, m.requestHashRefs r h = (heldInputs features m r h).length

/-- The counters: free slots are what the entries leave, and freeable slots add the
entries that no request refers to. -/
structure Slots (m : EncoderCacheManager R M) : Prop where
  keys : ∀ h, (m.numEmbedsByHash.get? h).isSome ↔ (m.cached.get? h).isSome
  numFree : m.numFreeSlots = m.cacheSize - (m.numEmbedsByHash.total fun _ n => n)
  nonneg : 0 ≤ m.numFreeSlots
  numFreeable : m.numFreeableSlots = m.numFreeSlots + (m.freeable.total fun _ n => n)
  freeable_iff : ∀ h n, m.freeable.get? h = some n ↔
    m.cached.get? h = some ∅ ∧ m.numEmbedsByHash.get? h = some n

/-- The state invariant of the manager. -/
structure Consistent (features : R → List (MultiModalFeature M)) (m : EncoderCacheManager R M) :
    Prop where
  refs : Refs features m
  slots : Slots m

variable {features : R → List (MultiModalFeature M)} {m : EncoderCacheManager R M} {r : R} {h : M}

theorem length_heldInputs_ne_zero :
    (heldInputs features m r h).length ≠ 0 ↔ Holds features m r h := by
  rw [Ne, length_eq_zero_iff, ← Ne, ne_nil_iff_exists_cons]
  constructor
  · rintro ⟨i, l, heq⟩
    have hmem : i ∈ heldInputs features m r h := heq ▸ mem_cons_self
    obtain ⟨hi, hany⟩ := mem_filter.mp hmem
    obtain ⟨f, hf, hid⟩ := (Option.any_eq_true _ _).mp hany
    exact ⟨i, hi, f, hf, by simpa using hid⟩
  · rintro ⟨i, hi, f, hf, hid⟩
    have hmem : i ∈ heldInputs features m r h :=
      mem_filter.mpr ⟨hi, by simp [hf, hid]⟩
    exact exists_cons_of_ne_nil (ne_nil_of_mem hmem)

theorem Refs.isSome_of_holds (hm : Refs features m)
    (hh : Holds features m r h) : (m.cached.get? h).isSome := by
  obtain ⟨i, hi, f, hf, rfl⟩ := hh
  obtain ⟨f', hf', hsome⟩ := hm.held r i hi
  obtain rfl : f' = f := Option.some.inj (hf' ▸ hf)
  exact hsome

theorem init_consistent (cacheSize : Nat) :
    Consistent features (init cacheSize : EncoderCacheManager R M) where
  refs :=
    { mem_iff := by intro h s hs; simp [init] at hs
      held := by intro r i hi; simp [init] at hi
      nodup := fun _ => nodup_nil
      hashRefs := fun _ _ => rfl }
  slots :=
    { keys := by simp [init]
      numFree := by simp [init]
      nonneg := by simp [init]
      numFreeable := by simp [init]
      freeable_iff := by simp [init] }

/-- The items of the inputs that hold a reference are all that the invariant reads
of `features`. -/
theorem Consistent.congr_features {features' : R → List (MultiModalFeature M)}
    (hm : Consistent features m)
    (h : ∀ r, ∀ i ∈ m.requestCachedIds r, (features' r)[i]? = (features r)[i]?) :
    Consistent features' m where
  refs :=
    { mem_iff := by
        intro k s hs r
        rw [hm.refs.mem_iff k s hs r]
        refine exists_congr fun i => and_congr_right fun hi => ?_
        rw [h r i hi]
      held := by
        intro r i hi
        rw [h r i hi]
        exact hm.refs.held r i hi
      nodup := hm.refs.nodup
      hashRefs := by
        intro r k
        rw [hm.refs.hashRefs r k]
        congr 1
        refine filter_congr fun i hi => ?_
        rw [h r i hi] }
  slots := hm.slots

section Methods

variable [DecidableEq R] {i : Nat} {f : MultiModalFeature M}

section AddCachedInputId

variable (m) (r : R) (i : Nat) (h : M)

@[simp] theorem addCachedInputId_cached : (m.addCachedInputId r i h).cached = m.cached := by
  unfold addCachedInputId; split <;> rfl

@[simp] theorem addCachedInputId_numEmbedsByHash :
    (m.addCachedInputId r i h).numEmbedsByHash = m.numEmbedsByHash := by
  unfold addCachedInputId; split <;> rfl

@[simp] theorem addCachedInputId_freeable : (m.addCachedInputId r i h).freeable = m.freeable := by
  unfold addCachedInputId; split <;> rfl

@[simp] theorem addCachedInputId_numFreeSlots :
    (m.addCachedInputId r i h).numFreeSlots = m.numFreeSlots := by
  unfold addCachedInputId; split <;> rfl

@[simp] theorem addCachedInputId_numFreeableSlots :
    (m.addCachedInputId r i h).numFreeableSlots = m.numFreeableSlots := by
  unfold addCachedInputId; split <;> rfl

@[simp] theorem addCachedInputId_cacheSize :
    (m.addCachedInputId r i h).cacheSize = m.cacheSize := by
  unfold addCachedInputId; split <;> rfl

@[simp] theorem mem_requestCachedIds_addCachedInputId {r' : R} {i' : Nat} :
    i' ∈ (m.addCachedInputId r i h).requestCachedIds r' ↔
      i' ∈ m.requestCachedIds r' ∨ (r' = r ∧ i' = i) := by
  unfold addCachedInputId
  split
  · next hin =>
    constructor
    · exact Or.inl
    · rintro (hi' | ⟨rfl, rfl⟩)
      · exact hi'
      · exact hin
  · by_cases hr : r' = r
    · subst hr
      simp
    · simp [hr]

end AddCachedInputId

theorem nodup_addCachedInputId {r' : R} (hnodup : (m.requestCachedIds r').Nodup) :
    ((m.addCachedInputId r i h).requestCachedIds r').Nodup := by
  unfold addCachedInputId
  split
  · exact hnodup
  rename_i hnew
  by_cases hr : r' = r
  · subst hr
    simpa [nodup_append'] using ⟨hnodup, hnew⟩
  · simpa [hr] using hnodup

theorem hashRefs_addCachedInputId (hf : (features r)[i]? = some f)
    (hrefs : ∀ r h, m.requestHashRefs r h = (heldInputs features m r h).length) (r' : R) (h : M) :
    (m.addCachedInputId r i f.identifier).requestHashRefs r' h =
      (heldInputs features (m.addCachedInputId r i f.identifier) r' h).length := by
  unfold addCachedInputId
  split
  · exact hrefs r' h
  by_cases hr : r' = r
  · subst hr
    have hold := hrefs r' h
    rw [heldInputs] at hold
    simp only [heldInputs, Function.update_self, filter_append, length_append]
    -- the new input counts for its own hash only
    by_cases hh : h = f.identifier
    · subst hh
      simp [hold, hf]
    · simp [hold, hf, hh, Ne.symm hh]
  · have hold := hrefs r' h
    simpa [heldInputs, hr] using hold

/-- A new reference through input `i`, to an entry that is there or just made. -/
theorem Refs.addReference (hm : Refs features m) (hf : (features r)[i]? = some f) :
    Refs features
      (m.addReference r i f.identifier ((m.cached.get? f.identifier).getD ∅)) := by
  set refs := (m.cached.get? f.identifier).getD ∅ with hrefs
  have hcached : (m.addReference r i f.identifier refs).cached =
      m.cached.insert f.identifier (insert r refs) := by
    simp [EncoderCacheManager.addReference]
  have hids : ∀ r' i', i' ∈ (m.addReference r i f.identifier refs).requestCachedIds r' ↔
      i' ∈ m.requestCachedIds r' ∨ (r' = r ∧ i' = i) := by
    simp [EncoderCacheManager.addReference]
  have hholds : ∀ r' h, Holds features (m.addReference r i f.identifier refs) r' h ↔
      Holds features m r' h ∨ (r' = r ∧ f.identifier = h) := by
    intro r' h
    constructor
    · rintro ⟨i', hi', f', hf', hid⟩
      rcases (hids r' i').mp hi' with hi' | ⟨rfl, rfl⟩
      · exact .inl ⟨i', hi', f', hf', hid⟩
      · obtain rfl : f' = f := Option.some.inj (hf' ▸ hf)
        exact .inr ⟨rfl, hid⟩
    · rintro (⟨i', hi', f', hf', hid⟩ | ⟨rfl, hid⟩)
      · exact ⟨i', (hids r' i').mpr (.inl hi'), f', hf', hid⟩
      · exact ⟨i, (hids r' i).mpr (.inr ⟨rfl, rfl⟩), f, hf, hid⟩
  -- an entry that was not there had no holder
  have hold : ∀ r', r' ∈ refs ↔ Holds features m r' f.identifier := by
    intro r'
    cases hget : m.cached.get? f.identifier with
    | none =>
      have hempty : refs = ∅ := by simp [hrefs, hget]
      have hno : ¬ Holds features m r' f.identifier := fun hh => by
        simpa [hget] using hm.isSome_of_holds hh
      simp [hempty, hno]
    | some s =>
      have hs : refs = s := by simp [hrefs, hget]
      rw [hs]
      exact hm.mem_iff _ _ hget r'
  refine ⟨?_, ?_, ?_, ?_⟩
  · intro h s hs r'
    rw [hcached, Dict.get?_insert] at hs
    rw [hholds]
    by_cases hh : h = f.identifier
    · subst hh
      rw [if_pos rfl] at hs
      cases hs
      rw [Finset.mem_insert, hold r']
      simp [or_comm]
    · rw [if_neg hh] at hs
      rw [hm.mem_iff h s hs r']
      simp [Ne.symm hh]
  · intro r' i' hi'
    rw [hcached]
    rcases (hids r' i').mp hi' with hi' | ⟨rfl, rfl⟩
    · obtain ⟨f', hf', hsome⟩ := hm.held r' i' hi'
      refine ⟨f', hf', ?_⟩
      rw [Dict.get?_insert]
      split
      · rfl
      · exact hsome
    · exact ⟨f, hf, by simp⟩
  · intro r'
    exact nodup_addCachedInputId (hm.nodup r')
  · intro r' h
    exact hashRefs_addCachedInputId
      (m := { m with cached := m.cached.insert f.identifier (insert r refs) }) hf hm.hashRefs r' h

/-- A reference to the entry of `h` once that entry is out of `freeable`; nothing is
asked of the old references of the entry. -/
theorem Slots.addReference {refs : Finset R}
    (hkeys : ∀ h', h' ≠ h → ((m.numEmbedsByHash.get? h').isSome ↔ (m.cached.get? h').isSome))
    (hsome : (m.numEmbedsByHash.get? h).isSome)
    (hfree : m.numFreeSlots = m.cacheSize - (m.numEmbedsByHash.total fun _ n => n))
    (hnonneg : 0 ≤ m.numFreeSlots)
    (hfreeable : m.numFreeableSlots = m.numFreeSlots + (m.freeable.total fun _ n => n))
    (hiff : ∀ h', h' ≠ h → ∀ n, (m.freeable.get? h' = some n ↔
      m.cached.get? h' = some ∅ ∧ m.numEmbedsByHash.get? h' = some n))
    (hnone : m.freeable.get? h = none) : Slots (m.addReference r i h refs) where
  keys := by
    intro h'
    by_cases hh : h' = h
    · subst hh
      simp [EncoderCacheManager.addReference, hsome]
    · simpa [EncoderCacheManager.addReference, Dict.get?_insert_of_ne _ _ hh] using hkeys h' hh
  numFree := by simpa [EncoderCacheManager.addReference] using hfree
  nonneg := by simpa [EncoderCacheManager.addReference] using hnonneg
  numFreeable := by simpa [EncoderCacheManager.addReference] using hfreeable
  freeable_iff := by
    intro h' n
    by_cases hh : h' = h
    · subst hh
      simp [EncoderCacheManager.addReference, hnone]
    · simpa [EncoderCacheManager.addReference, Dict.get?_insert_of_ne _ _ hh] using
        hiff h' hh n

omit [DecidableEq R] in
theorem Slots.freeable_eq_none (hm : Slots m) {refs : Finset R}
    (hget : m.cached.get? h = some refs) (hne : refs ≠ ∅) : m.freeable.get? h = none := by
  cases hfree : m.freeable.get? h with
  | none => rfl
  | some n =>
    have hempty := ((hm.freeable_iff h n).mp hfree).1
    rw [hget] at hempty
    exact absurd (Option.some.inj hempty) hne

/-- Input `i` of `r` holds a reference as well. -/
def Takes (r : R) (i : Nat) (m m' : EncoderCacheManager R M) : Prop :=
  ∀ r' i', i' ∈ m'.requestCachedIds r' ↔ i' ∈ m.requestCachedIds r' ∨ (r' = r ∧ i' = i)

theorem Takes.addReference (refs : Finset R) : Takes r i m (m.addReference r i h refs) := by
  simp [Takes, EncoderCacheManager.addReference]

/-- The inputs `ids` of `r` hold no reference any more. -/
def GivesUp (r : R) (ids : List Nat) (m m' : EncoderCacheManager R M) : Prop :=
  ∀ r' i', i' ∈ m'.requestCachedIds r' ↔ i' ∈ m.requestCachedIds r' ∧ ¬ (r' = r ∧ i' ∈ ids)

/-- The entries and the free slots are the same; only references moved. -/
structure SameEntries (m m' : EncoderCacheManager R M) : Prop where
  keys : ∀ h, (m'.cached.get? h).isSome ↔ (m.cached.get? h).isSome
  numFree : m'.numFreeSlots = m.numFreeSlots

omit [DecidableEq R] in
theorem SameEntries.refl (m : EncoderCacheManager R M) : SameEntries m m :=
  ⟨fun _ => Iff.rfl, rfl⟩

omit [DecidableEq R] in
theorem SameEntries.trans {m₁ m₂ m₃ : EncoderCacheManager R M} (h₁ : SameEntries m₁ m₂)
    (h₂ : SameEntries m₂ m₃) : SameEntries m₁ m₃ :=
  ⟨fun h => (h₂.keys h).trans (h₁.keys h), h₂.numFree.trans h₁.numFree⟩

omit [DecidableEq R] in
theorem isSome_get?_insert_iff {d : Dict M (Finset R)} {h' : M} {s : Finset R}
    (hget : (d.get? h).isSome) : ((d.insert h s).get? h').isSome ↔ (d.get? h').isSome := by
  rw [Dict.get?_insert]
  split
  · next heq => simp [heq, hget]
  · exact Iff.rfl

omit [DecidableEq M] [DecidableEq R] in
theorem feature_eq (hf : (features r)[i]? = some f) :
    (⟨r, features r⟩ : Request R M).feature i = .ok f := by
  simp [Request.feature, hf]

section

variable (hm : Consistent features m)
include hm

/-- A lookup says whether the item is cached, and a hit takes a reference. -/
theorem Consistent.checkAndUpdateCache (hf : (features r)[i]? = some f) :
    ∃ m', m.checkAndUpdateCache ⟨r, features r⟩ i =
        .ok ((m.cached.get? f.identifier).isSome, m') ∧
      Consistent features m' ∧ SameEntries m m' ∧
      if (m.cached.get? f.identifier).isSome then Takes r i m m'
      else m'.requestCachedIds = m.requestCachedIds := by
  simp only [EncoderCacheManager.checkAndUpdateCache, feature_eq hf, Except.bind]
  cases hget : m.cached.get? f.identifier with
  | none => exact ⟨m, rfl, hm, .refl m, rfl⟩
  | some refs =>
    have hentry : (m.cached.get? f.identifier).isSome := by simp [hget]
    have hembeds := (hm.slots.keys f.identifier).mpr hentry
    have hrefs : (m.cached.get? f.identifier).getD ∅ = refs := by simp [hget]
    by_cases hempty : refs = ∅
    · -- the entry leaves `freeable` with its embeds
      obtain ⟨n, hn⟩ := Option.isSome_iff_exists.mp hembeds
      have hfreeable : m.freeable.get? f.identifier = some n :=
        (hm.slots.freeable_iff _ _).mpr ⟨by rw [hget, hempty], hn⟩
      have htotal := Dict.total_erase_add (fun _ n => n) hfreeable
      refine ⟨_, by simp only [revive, if_pos hempty, hfreeable, Except.map]; rfl, ⟨?_, ?_⟩, ?_, ?_⟩
      · have hadd := Refs.addReference (m := { m with
            freeable := m.freeable.erase f.identifier
            numFreeableSlots := m.numFreeableSlots - n })
          ⟨hm.refs.mem_iff, hm.refs.held, hm.refs.nodup, hm.refs.hashRefs⟩ hf
        rwa [hrefs] at hadd
      · refine Slots.addReference (fun h' _ => hm.slots.keys h') hembeds hm.slots.numFree
          hm.slots.nonneg ?_ ?_ (Dict.get?_erase_self _ _)
        · show m.numFreeableSlots - n =
            m.numFreeSlots + ((m.freeable.erase f.identifier).total fun _ n => n)
          have := hm.slots.numFreeable
          omega
        · intro h' hne k
          rw [Dict.get?_erase_of_ne _ hne]
          exact hm.slots.freeable_iff h' k
      · exact ⟨fun h' => by
          simpa [EncoderCacheManager.addReference] using isSome_get?_insert_iff hentry, by
          simp [EncoderCacheManager.addReference]⟩
      · simp [Takes, EncoderCacheManager.addReference]
    · refine ⟨_, by simp only [revive, if_neg hempty, Except.map]; rfl, ⟨?_, ?_⟩, ?_, ?_⟩
      · have hadd := Refs.addReference hm.refs hf
        rwa [hrefs] at hadd
      · exact Slots.addReference (fun h' _ => hm.slots.keys h') hembeds hm.slots.numFree
          hm.slots.nonneg hm.slots.numFreeable (fun h' _ => hm.slots.freeable_iff h')
          (hm.slots.freeable_eq_none hget hempty)
      · exact ⟨fun h' => by
          simpa [EncoderCacheManager.addReference] using isSome_get?_insert_iff hentry, by
          simp [EncoderCacheManager.addReference]⟩
      · simp [Takes, EncoderCacheManager.addReference]

/-! ## Eviction -/

omit hm [DecidableEq R] in
theorem Refs.evict (hm : Refs features m) (hget : m.cached.get? h = some ∅) :
    Refs features { m with cached := m.cached.erase h } where
  mem_iff := by
    intro h' s hs
    exact hm.mem_iff h' s (Dict.get?_erase_eq_some.mp hs).2
  held := by
    intro r i hi
    obtain ⟨f, hf, hsome⟩ := hm.held r i hi
    refine ⟨f, hf, ?_⟩
    -- a held input would make its request a reference of the evicted entry
    have hne : f.identifier ≠ h := by
      rintro rfl
      have hmem := (hm.mem_iff _ _ hget r).mpr ⟨i, hi, f, hf, rfl⟩
      simp at hmem
    rwa [Dict.get?_erase_of_ne _ hne]
  nodup := hm.nodup
  hashRefs := hm.hashRefs

omit [DecidableEq R] in
theorem Consistent.evict {n : Nat} (hget : m.freeable.get? h = some n) :
    Consistent features { m with
      freeable := m.freeable.erase h
      cached := m.cached.erase h
      numEmbedsByHash := m.numEmbedsByHash.erase h
      freed := m.freed ++ [h]
      numFreeSlots := m.numFreeSlots + n } := by
  obtain ⟨hcached, hembeds⟩ := (hm.slots.freeable_iff h n).mp hget
  have hrefs := hm.refs.evict hcached
  have htotal := Dict.total_erase_add (fun _ n => n) hembeds
  have hfreeable := Dict.total_erase_add (fun _ n => n) hget
  refine ⟨⟨hrefs.mem_iff, hrefs.held, hrefs.nodup, hrefs.hashRefs⟩, ⟨?_, ?_, ?_, ?_, ?_⟩⟩
  · intro h'
    have := hm.slots.keys h'
    simp only [Dict.get?_erase]
    split
    · simp
    · exact this
  · show m.numFreeSlots + n =
      m.cacheSize - ((m.numEmbedsByHash.erase h).total fun _ n => n)
    have := hm.slots.numFree
    omega
  · show 0 ≤ m.numFreeSlots + n
    have := hm.slots.nonneg
    omega
  · show m.numFreeableSlots =
      m.numFreeSlots + n + ((m.freeable.erase h).total fun _ n => n)
    have := hm.slots.numFreeable
    omega
  · intro h' k
    simp only [Dict.get?_erase]
    split
    · simp
    · exact hm.slots.freeable_iff h' k

omit [DecidableEq R] in
/-- Eviction reaches the space asked for, before it runs out of entries. -/
theorem Consistent.evictLoop {numEmbeds : Nat} {entries : List (M × Nat)}
    (hentries : m.freeable.entries = entries) (hle : (numEmbeds : Int) ≤ m.numFreeableSlots) :
    ∃ m', EncoderCacheManager.evictLoop numEmbeds entries m = .ok m' ∧ Consistent features m' ∧
      (numEmbeds : Int) ≤ m'.numFreeSlots ∧
      (∀ h, (m'.cached.get? h).isSome → (m.cached.get? h).isSome) ∧
      m'.requestCachedIds = m.requestCachedIds := by
  induction entries generalizing m with
  | nil =>
    -- nothing is freeable, so the freeable slots are the free ones
    have hzero : (m.freeable.total fun _ n => n) = 0 := by simp [Dict.total, hentries]
    have hfree : (numEmbeds : Int) ≤ m.numFreeSlots := by
      have := hm.slots.numFreeable
      omega
    exact ⟨m, by simp [EncoderCacheManager.evictLoop, hfree], hm, hfree, fun _ h => h, rfl⟩
  | cons e rest ih =>
    obtain ⟨h, n⟩ := e
    unfold EncoderCacheManager.evictLoop
    by_cases hfree : (numEmbeds : Int) ≤ m.numFreeSlots
    · exact ⟨m, by rw [if_pos hfree], hm, hfree, fun _ h => h, rfl⟩
    have hget : m.freeable.get? h = some n :=
      Dict.mem_entries_iff.mp (hentries ▸ mem_cons_self)
    obtain ⟨hcached, hembeds⟩ := (hm.slots.freeable_iff h n).mp hget
    obtain ⟨m', hok, hm', hspace, hkeys, hids⟩ :=
      ih (hm.evict hget) (Dict.erase_head hentries) hle
    refine ⟨m', ?_, hm', hspace, fun h' hsome => ?_, hids⟩
    · rw [if_neg hfree, if_neg (by simp [hcached, hembeds])]
      exact hok
    · have hafter := hkeys h' hsome
      simp only [Dict.get?_erase] at hafter
      split at hafter
      · simp at hafter
      · exact hafter

omit [DecidableEq R] in
/-- `canAllocate` answers, and on a positive answer there is space for the item
next to what is already planned. -/
theorem Consistent.canAllocate (hf : (features r)[i]? = some f) (budget : Int) (planned : Nat) :
    ∃ fits m', m.canAllocate ⟨r, features r⟩ i budget planned = .ok (fits, m') ∧
      Consistent features m' ∧ (fits = false → m' = m) ∧
      (fits = true → (f.numEmbeds : Int) ≤ budget ∧
        ((f.numEmbeds + planned : Nat) : Int) ≤ m'.numFreeSlots) ∧
      (∀ h, (m'.cached.get? h).isSome → (m.cached.get? h).isSome) ∧
      m'.requestCachedIds = m.requestCachedIds := by
  simp only [EncoderCacheManager.canAllocate, feature_eq hf, Except.bind]
  by_cases hbudget : budget < f.numEmbeds
  · exact ⟨false, m, by rw [if_pos hbudget], hm, fun _ => rfl, by simp, fun _ h => h, rfl⟩
  have hle : (f.numEmbeds : Int) ≤ budget := not_lt.mp hbudget
  by_cases hfree : ((f.numEmbeds + planned : Nat) : Int) ≤ m.numFreeSlots
  · exact ⟨true, m, by rw [if_neg hbudget, if_pos hfree], hm, by simp, fun _ => ⟨hle, hfree⟩,
      fun _ h => h, rfl⟩
  by_cases hfreeable : m.numFreeableSlots < ((f.numEmbeds + planned : Nat) : Int)
  · exact ⟨false, m, by rw [if_neg hbudget, if_neg hfree, if_pos hfreeable], hm, fun _ => rfl,
      by simp, fun _ h => h, rfl⟩
  obtain ⟨m', hok, hm', hspace, hkeys, hids⟩ := hm.evictLoop rfl (not_lt.mp hfreeable)
  refine ⟨true, m', ?_, hm', by simp, fun _ => ⟨hle, hspace⟩, hkeys, hids⟩
  rw [if_neg hbudget, if_neg hfree, if_neg hfreeable, hok]
  rfl

/-- An item that is not cached and fits is entered without a failed assertion. -/
theorem Consistent.allocate (hf : (features r)[i]? = some f)
    (hnone : m.cached.get? f.identifier = none) (hspace : (f.numEmbeds : Int) ≤ m.numFreeSlots) :
    ∃ m', m.allocate ⟨r, features r⟩ i = .ok m' ∧ Consistent features m' ∧
      m'.numFreeSlots = m.numFreeSlots - f.numEmbeds ∧
      (∀ h, (m'.cached.get? h).isSome ↔ h = f.identifier ∨ (m.cached.get? h).isSome) ∧
      Takes r i m m' := by
  have hembeds : m.numEmbedsByHash.get? f.identifier = none := by
    have := hm.slots.keys f.identifier
    simpa [hnone] using this
  have hfreeable : (f.numEmbeds : Int) ≤ m.numFreeableSlots := by
    have := hm.slots.numFreeable
    omega
  -- the counters can as well be lowered before the reference is entered
  let m₁ : EncoderCacheManager R M := { m with
    numEmbedsByHash := m.numEmbedsByHash.insert f.identifier f.numEmbeds
    numFreeSlots := m.numFreeSlots - f.numEmbeds
    numFreeableSlots := m.numFreeableSlots - f.numEmbeds }
  have hnotFreeable : m.freeable.get? f.identifier = none := by
    cases hget : m.freeable.get? f.identifier with
    | none => rfl
    | some n => simpa [hnone] using ((hm.slots.freeable_iff _ n).mp hget).1
  refine ⟨m₁.addReference r i f.identifier ∅, ?_, ⟨?_, ?_⟩, ?_, ?_, Takes.addReference (m := m₁) ∅⟩
  · simp only [EncoderCacheManager.allocate, feature_eq hf, Except.bind, hembeds, hnone,
      Option.getD_none]
    rw [if_pos ⟨trivial, hspace, hfreeable⟩]
    simp only [EncoderCacheManager.addReference, addCachedInputId, m₁]
    split <;> rfl
  · have hadd := Refs.addReference (m := m₁)
      ⟨hm.refs.mem_iff, hm.refs.held, hm.refs.nodup, hm.refs.hashRefs⟩ hf
    simpa [m₁, hnone] using hadd
  · refine Slots.addReference ?_ (by simp [m₁]) ?_ ?_ ?_ ?_ hnotFreeable
    · intro h' hne
      simpa [m₁, Dict.get?_insert_of_ne _ _ hne] using hm.slots.keys h'
    · show m.numFreeSlots - f.numEmbeds = m.cacheSize -
        ((m.numEmbedsByHash.insert f.identifier f.numEmbeds).total fun _ n => n)
      have htotal := Dict.total_insert_of_none (fun _ n => n) f.numEmbeds hembeds
      have := hm.slots.numFree
      omega
    · show 0 ≤ m.numFreeSlots - f.numEmbeds
      omega
    · show m.numFreeableSlots - f.numEmbeds =
        m.numFreeSlots - f.numEmbeds + (m.freeable.total fun _ n => n)
      have := hm.slots.numFreeable
      omega
    · intro h' hne k
      simpa [m₁, Dict.get?_insert_of_ne _ _ hne] using hm.slots.freeable_iff h' k
  · simp [EncoderCacheManager.addReference, m₁]
  · intro h'
    simp only [EncoderCacheManager.addReference, addCachedInputId_cached, Dict.get?_insert]
    split
    · next heq => simp [heq]
    · next hne => simp [hne, m₁]

end

/-! ## Freeing an input -/

/-- The references while one input is being freed: `r` may still be listed at the
entry of `h` although it holds none of its inputs any more. -/
structure LooseRefs (features : R → List (MultiModalFeature M)) (m : EncoderCacheManager R M)
    (r : R) (h : M) : Prop where
  mem_iff : ∀ h' s, m.cached.get? h' = some s → ∀ r',
    (r' = r ∧ h' = h) ∨ (r' ∈ s ↔ Holds features m r' h')
  mem_of_holds : ∀ s, m.cached.get? h = some s → Holds features m r h → r ∈ s
  held : ∀ r, ∀ i ∈ m.requestCachedIds r,
    ∃ f, (features r)[i]? = some f ∧ (m.cached.get? f.identifier).isSome
  nodup : ∀ r, (m.requestCachedIds r).Nodup
  hashRefs : ∀ r h, m.requestHashRefs r h = (heldInputs features m r h).length

omit [DecidableEq R] in
theorem LooseRefs.refs (hm : LooseRefs features m r h)
    (hmem : ∀ s, m.cached.get? h = some s → r ∈ s → Holds features m r h) : Refs features m where
  mem_iff := by
    intro h' s hs r'
    rcases hm.mem_iff h' s hs r' with ⟨rfl, rfl⟩ | hiff
    · exact ⟨hmem s hs, hm.mem_of_holds s hs⟩
    · exact hiff
  held := hm.held
  nodup := hm.nodup
  hashRefs := hm.hashRefs

omit [DecidableEq R] in
theorem Refs.loose (hm : Refs features m) : LooseRefs features m r h where
  mem_iff := fun h' s hs r' => .inr (hm.mem_iff h' s hs r')
  mem_of_holds := fun s hs hh => (hm.mem_iff h s hs r).mpr hh
  held := hm.held
  nodup := hm.nodup
  hashRefs := hm.hashRefs

theorem mem_requestCachedIds_forgetInput
    (hnodup : (m.requestCachedIds r).Nodup) (r' : R) (i' : Nat) :
    i' ∈ (m.forgetInput r i h).requestCachedIds r' ↔
      i' ∈ m.requestCachedIds r' ∧ ¬ (r' = r ∧ i' = i) := by
  by_cases hr : r' = r
  · subst hr
    simp [forgetInput, hnodup.mem_erase_iff, and_comm]
  · simp [forgetInput, hr]

theorem hashRefs_forgetInput (hm : Refs features m)
    (hf : (features r)[i]? = some f) (hin : i ∈ m.requestCachedIds r) (r' : R) (h : M) :
    (m.forgetInput r i f.identifier).requestHashRefs r' h =
      (heldInputs features (m.forgetInput r i f.identifier) r' h).length := by
  have hold := hm.hashRefs r' h
  by_cases hr : r' = r
  · subst hr
    have hlist : heldInputs features (m.forgetInput r' i f.identifier) r' h =
        (heldInputs features m r' h).erase i := by
      simp only [heldInputs, forgetInput, Function.update_self]
      rw [(hm.nodup r').erase_eq_filter, ((hm.nodup r').filter _).erase_eq_filter, filter_comm]
    rw [hlist]
    -- the item of `i` counted for its own hash only
    by_cases hh : h = f.identifier
    · subst hh
      have hmem : i ∈ heldInputs features m r' f.identifier :=
        mem_filter.mpr ⟨hin, by simp [hf]⟩
      simp [forgetInput, hold, length_erase_of_mem hmem]
    · have hnot : i ∉ heldInputs features m r' h := by
        intro hmem
        have hany := (mem_filter.mp hmem).2
        simp [hf, Ne.symm hh] at hany
      simp [forgetInput, hh, hold, erase_of_not_mem hnot]
  · simpa [forgetInput, heldInputs, hr] using hold

theorem Refs.forgetInput (hm : Refs features m)
    (hf : (features r)[i]? = some f) (hin : i ∈ m.requestCachedIds r) :
    LooseRefs features (m.forgetInput r i f.identifier) r f.identifier := by
  have hids := mem_requestCachedIds_forgetInput (h := f.identifier) (i := i) (hm.nodup r)
  have hholds : ∀ r' h, Holds features (m.forgetInput r i f.identifier) r' h →
      Holds features m r' h := by
    rintro r' h ⟨i', hi', f', hf', hid⟩
    exact ⟨i', ((hids r' i').mp hi').1, f', hf', hid⟩
  refine ⟨?_, ?_, ?_, ?_, hashRefs_forgetInput hm hf hin⟩
  · intro h' s hs r'
    by_cases hsame : r' = r ∧ h' = f.identifier
    · exact .inl hsame
    refine .inr ((hm.mem_iff h' s hs r').trans ⟨?_, hholds r' h'⟩)
    rintro ⟨i', hi', f', hf', hid⟩
    refine ⟨i', (hids r' i').mpr ⟨hi', ?_⟩, f', hf', hid⟩
    rintro ⟨rfl, rfl⟩
    obtain rfl : f' = f := Option.some.inj (hf' ▸ hf)
    exact hsame ⟨rfl, hid.symm⟩
  · intro s hs hh
    exact (hm.mem_iff _ s hs r).mpr (hholds r _ hh)
  · intro r' i' hi'
    exact hm.held r' i' ((hids r' i').mp hi').1
  · intro r'
    by_cases hr : r' = r
    · subst hr
      simpa [EncoderCacheManager.forgetInput] using (hm.nodup r').erase i
    · simpa [EncoderCacheManager.forgetInput, hr] using hm.nodup r'

theorem Consistent.removeCachedInputId (hm : Consistent features m)
    (hf : (features r)[i]? = some f) :
    ∃ m', m.removeCachedInputId r i f.identifier = .ok m' ∧
      LooseRefs features m' r f.identifier ∧ Slots m' ∧ SameEntries m m' ∧ GivesUp r [i] m m' := by
  unfold EncoderCacheManager.removeCachedInputId
  by_cases hin : i ∈ m.requestCachedIds r
  · have hcount : m.requestHashRefs r f.identifier ≠ 0 := by
      rw [hm.refs.hashRefs, length_heldInputs_ne_zero]
      exact ⟨i, hin, f, hf, rfl⟩
    refine ⟨m.forgetInput r i f.identifier, by rw [if_pos hin, if_neg hcount],
      hm.refs.forgetInput hf hin, ?_, ⟨fun _ => Iff.rfl, rfl⟩, ?_⟩
    · exact ⟨hm.slots.keys, hm.slots.numFree, hm.slots.nonneg, hm.slots.numFreeable,
        hm.slots.freeable_iff⟩
    · intro r' i'
      rw [mem_requestCachedIds_forgetInput (hm.refs.nodup r), mem_singleton]
  · refine ⟨m, by rw [if_neg hin], hm.refs.loose, hm.slots, .refl m, fun r' i' => ?_⟩
    refine (and_iff_left_of_imp fun hi' => ?_).symm
    rintro ⟨rfl, hmem⟩
    exact hin (mem_singleton.mp hmem ▸ hi')

/-- The references once `r` is taken off the entry of `h`. -/
theorem LooseRefs.eraseReference {refs : Finset R}
    (hm : LooseRefs features m r h) (hget : m.cached.get? h = some refs)
    (hno : ¬ Holds features m r h) :
    Refs features { m with cached := m.cached.insert h (refs.erase r) } where
  mem_iff := by
    intro h' s hs r'
    rw [Dict.get?_insert] at hs
    by_cases hh : h' = h
    · subst hh
      rw [if_pos rfl] at hs
      cases hs
      rw [Finset.mem_erase]
      rcases hm.mem_iff h' refs hget r' with ⟨rfl, -⟩ | hiff
      · exact ⟨fun hmem => absurd rfl hmem.1, fun hh => absurd hh hno⟩
      constructor
      · exact fun hmem => hiff.mp hmem.2
      · intro hh
        exact ⟨fun heq => hno (heq ▸ hh), hiff.mpr hh⟩
    · rw [if_neg hh] at hs
      rcases hm.mem_iff h' s hs r' with ⟨-, heq⟩ | hiff
      · exact absurd heq hh
      · exact hiff
  held := by
    intro r' i hi
    obtain ⟨f, hf, hsome⟩ := hm.held r' i hi
    exact ⟨f, hf, (isSome_get?_insert_iff (by simp [hget])).mpr hsome⟩
  nodup := hm.nodup
  hashRefs := hm.hashRefs

theorem LooseRefs.dropReference (hm : LooseRefs features m r h) (hslots : Slots m) :
    ∃ m', m.dropReference r h = .ok m' ∧ Consistent features m' ∧ SameEntries m m' ∧
      m'.requestCachedIds = m.requestCachedIds := by
  unfold EncoderCacheManager.dropReference
  cases hget : m.cached.get? h with
  | none =>
    refine ⟨m, rfl, ⟨hm.refs ?_, hslots⟩, .refl m, rfl⟩
    intro s hs
    rw [hget] at hs
    cases hs
  | some refs =>
    have hentry : (m.cached.get? h).isSome := by simp [hget]
    by_cases hempty : refs = ∅
    · refine ⟨m, by simp [hempty], ⟨hm.refs ?_, hslots⟩, .refl m, rfl⟩
      intro s hs hmem
      obtain rfl := Option.some.inj (hget ▸ hs)
      simp [hempty] at hmem
    by_cases hcount : m.requestHashRefs r h ≠ 0
    · refine ⟨m, by simp [hcount], ⟨hm.refs fun _ _ _ => ?_, hslots⟩, .refl m, rfl⟩
      rw [hm.hashRefs] at hcount
      exact length_heldInputs_ne_zero.mp hcount
    have hno : ¬ Holds features m r h := by
      rwa [hm.hashRefs, length_heldInputs_ne_zero] at hcount
    have hrefs := hm.eraseReference hget hno
    have hkeys : ∀ h', ((m.cached.insert h (refs.erase r)).get? h').isSome ↔
        (m.cached.get? h').isSome := fun h' => isSome_get?_insert_iff hentry
    have hnone := hslots.freeable_eq_none hget hempty
    by_cases hlast : refs.erase r = ∅
    · -- the last reference is gone: the entry becomes freeable
      obtain ⟨n, hn⟩ := Option.isSome_iff_exists.mp ((hslots.keys h).mpr hentry)
      have htotal := Dict.total_insert_of_none (fun _ n => n) n hnone
      refine ⟨{ m with
          cached := m.cached.insert h (refs.erase r)
          freeable := m.freeable.insert h n
          numFreeableSlots := m.numFreeableSlots + n },
        by simp [hempty, hcount, hlast, hn], ⟨?_, ?_, hslots.numFree, hslots.nonneg, ?_, ?_⟩,
        ⟨hkeys, rfl⟩, rfl⟩
      · exact ⟨hrefs.mem_iff, hrefs.held, hrefs.nodup, hrefs.hashRefs⟩
      · exact fun h' => (hslots.keys h').trans (hkeys h').symm
      · show m.numFreeableSlots + n =
          m.numFreeSlots + ((m.freeable.insert h n).total fun _ n => n)
        have := hslots.numFreeable
        omega
      · intro h' k
        by_cases hh : h' = h
        · subst hh
          simp [hlast, hn]
        · simpa [Dict.get?_insert_of_ne _ _ hh] using hslots.freeable_iff h' k
    · refine ⟨{ m with cached := m.cached.insert h (refs.erase r) },
        by simp [hempty, hcount, hlast], ⟨hrefs, ?_, hslots.numFree, hslots.nonneg,
          hslots.numFreeable, ?_⟩, ⟨hkeys, rfl⟩, rfl⟩
      · exact fun h' => (hslots.keys h').trans (hkeys h').symm
      · intro h' k
        by_cases hh : h' = h
        · subst hh
          simp [hlast, hnone]
        · simpa [Dict.get?_insert_of_ne _ _ hh] using hslots.freeable_iff h' k

theorem Consistent.freeEncoderInput (hm : Consistent features m) (hf : (features r)[i]? = some f) :
    ∃ m', m.freeEncoderInput ⟨r, features r⟩ i = .ok m' ∧ Consistent features m' ∧
      SameEntries m m' ∧ GivesUp r [i] m m' := by
  obtain ⟨m₁, hok₁, hloose, hslots, hsame₁, hgives⟩ := hm.removeCachedInputId hf
  obtain ⟨m₂, hok₂, hm₂, hsame₂, hids⟩ := hloose.dropReference hslots
  refine ⟨m₂, ?_, hm₂, hsame₁.trans hsame₂, ?_⟩
  swap
  · rw [GivesUp, hids]
    exact hgives
  simp only [EncoderCacheManager.freeEncoderInput, feature_eq hf, Except.bind, hok₁]
  exact hok₂

/-- The inputs stay in range while the list that was read at the start is worked off. -/
theorem Consistent.free {ids : List Nat} (hm : Consistent features m)
    (hids : ∀ i ∈ ids, ∃ f, (features r)[i]? = some f) :
    ∃ m', m.free ⟨r, features r⟩ ids = .ok m' ∧ Consistent features m' ∧ SameEntries m m' ∧
      GivesUp r ids m m' := by
  induction ids generalizing m with
  | nil => exact ⟨m, rfl, hm, .refl m, fun r' i' => by simp⟩
  | cons i ids ih =>
    obtain ⟨f, hf⟩ := hids i mem_cons_self
    obtain ⟨m₁, hok₁, hm₁, hsame₁, hgives₁⟩ := hm.freeEncoderInput hf
    obtain ⟨m₂, hok₂, hm₂, hsame₂, hgives₂⟩ := ih hm₁ fun j hj => hids j (mem_cons_of_mem i hj)
    refine ⟨m₂, ?_, hm₂, hsame₁.trans hsame₂, fun r' i' => ?_⟩
    · rw [EncoderCacheManager.free, foldlM_cons, hok₁]
      exact hok₂
    · rw [hgives₂, hgives₁, mem_singleton, mem_cons]
      tauto

end Methods

end EncoderCacheManager

end Vllm.Encoder
