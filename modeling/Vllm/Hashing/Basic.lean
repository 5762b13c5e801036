import Vllm.Library.Bisect

/-!
# Prefix block hashing

The block hashes of a request (`v1/core/kv_cache_utils.py`, `v1/request.py`).
A request's tokens are cut into blocks of `hashBlockSize`. The hash of a block
covers the hash of the block before it, the block's tokens and *extra keys*:
the LoRA adapter, the multimodal inputs in the block, the cache salt (first
block only) and a digest of the prompt embeddings. With a lookahead of `L`
tokens, a hash also covers the `L` tokens after its block.

The multimodal inputs of a block are found with a cursor into the request's
feature list. One call of the hasher carries the cursor from block to block
and rewinds it under lookahead; a later call finds its start by bisection.
-/

namespace Vllm.Hashing

open Library

/-! ## Data -/

/-- Where a multimodal input sits in the prompt. The processor drops inputs
without placeholder tokens, so the length is positive. -/
structure PlaceholderRange where
  offset : Nat
  length : Nat
  length_pos : 0 < length
  deriving DecidableEq, Repr

/-- The position after the last placeholder token. -/
def PlaceholderRange.stop (p : PlaceholderRange) : Nat := p.offset + p.length

theorem PlaceholderRange.offset_lt_stop (p : PlaceholderRange) : p.offset < p.stop :=
  Nat.lt_add_of_pos_right p.length_pos

structure MultiModalFeatureSpec where
  identifier : String
  mmPosition : PlaceholderRange
  deriving DecidableEq, Repr

structure LoRARequest where
  loraName : String
  loraPath : String
  deriving DecidableEq, Repr

/-- One tagged extra key. `B` is the type of digests. -/
inductive ExtraKey (B : Type) where
  | mm (identifier : String) (start : Int)
  | lora (name path : String)
  | cacheSalt (salt : String)
  | promptEmbeds (digest : B)

/-- The extra keys as they enter the hash: `None` or a tuple of keys, and under
lookahead the pair of these with the lookahead tokens. -/
inductive BlockExtra (B : Type) where
  | plain (keys : Option (List (ExtraKey B)))
  | lookahead (keys : Option (List (ExtraKey B))) (tokens : List Int)

/-- What the configured hash function is applied to: the seed of `NONE_HASH`,
or the triple of a block. -/
inductive HashInput (B : Type) where
  | seed (s : String)
  | block (parent : B) (tokens : List Int) (extra : BlockExtra B)

/-- The parameters of `get_request_block_hasher`, with the seed of `NONE_HASH`
and the digest of a slice of prompt embeddings (rows of type `E`).
`truthy` is Python's truth value of a digest. -/
structure HasherConfig (B E : Type) where
  hashBlockSize : Nat
  hashBlockSize_pos : 0 < hashBlockSize
  numHashLookaheadTokens : Nat
  cachingHashFn : HashInput B → B
  truthy : B → Bool
  noneHashSeed : String
  embedsDigest : List E → B

/-- The part of a request that the extra keys are read from. A salt is
validated to be non-empty when the request enters (`validate_cache_salt`). -/
structure RequestInputs (E : Type) where
  mmFeatures : List MultiModalFeatureSpec
  loraRequest : Option LoRARequest
  cacheSalt : Option String
  cacheSalt_ne : cacheSalt ≠ some ""
  promptEmbeds : Option (List E)

structure Request (B E : Type) extends RequestInputs E where
  allTokenIds : List Int
  blockHashes : List B

def Request.numTokens {B E : Type} (r : Request B E) : Nat := r.allTokenIds.length

/-! ## Extra keys -/

/-- Python's slice `xs[start:stop]`. -/
def slice {α : Type} (xs : List α) (start stop : Nat) : List α :=
  (xs.drop start).take (stop - start)

section ExtraKeys

variable {B E : Type} (cfg : HasherConfig B E)

/-- The `while` loop of `_gen_mm_extra_hash_keys` over the features from
`currMMIdx` on. Returns the keys and the next cursor. -/
def genMMLoop (startTokenIdx endTokenIdx : Nat) :
    List MultiModalFeatureSpec → Nat → List (ExtraKey B) × Nat
  | [], currMMIdx => ([], currMMIdx)
  | f :: fs, currMMIdx =>
    if f.mmPosition.offset < endTokenIdx then
      if f.mmPosition.stop ≤ startTokenIdx then
        -- the block has passed this input
        genMMLoop startTokenIdx endTokenIdx fs (currMMIdx + 1)
      else
        let key := ExtraKey.mm f.identifier ((f.mmPosition.offset : Int) - startTokenIdx)
        if f.mmPosition.stop ≤ endTokenIdx then
          let rest := genMMLoop startTokenIdx endTokenIdx fs (currMMIdx + 1)
          (key :: rest.1, rest.2)
        else
          -- the input goes on after the block: done with multimodal inputs
          ([key], currMMIdx)
    else ([], currMMIdx)

/-- `_gen_mm_extra_hash_keys`. -/
def genMMExtraHashKeys (mmFeatures : List MultiModalFeatureSpec)
    (startTokenIdx endTokenIdx startMMIdx : Nat) : List (ExtraKey B) × Nat :=
  match mmFeatures.getLast? with
  | none => ([], startMMIdx)
  | some last =>
    if last.mmPosition.stop ≤ startTokenIdx then ([], startMMIdx)
    else genMMLoop startTokenIdx endTokenIdx (mmFeatures.drop startMMIdx) startMMIdx

/-- `_gen_lora_extra_hash_keys`. -/
def genLoRAExtraHashKeys (r : RequestInputs E) : List (ExtraKey B) :=
  match r.loraRequest with
  | none => []
  | some l => [.lora l.loraName l.loraPath]

/-- The salt key of `generate_block_hash_extra_keys`: on the first block only. -/
def genCacheSaltKeys (r : RequestInputs E) (startTokenIdx : Nat) : List (ExtraKey B) :=
  match r.cacheSalt with
  | none => []
  | some salt => if startTokenIdx = 0 ∧ salt ≠ "" then [.cacheSalt salt] else []

/-- `_gen_prompt_embeds_extra_hash_keys`. The per-request memo of the digests
holds what is computed here, so it is left out. -/
def genPromptEmbedsExtraHashKeys (r : RequestInputs E)
    (startTokenIdx endTokenIdx : Nat) : List (ExtraKey B) :=
  match r.promptEmbeds with
  | none => []
  | some embeds => [.promptEmbeds (cfg.embedsDigest (slice embeds startTokenIdx endTokenIdx))]

/-- Join the four kinds of keys; no key at all is `None`. -/
def joinExtraKeys (r : RequestInputs E) (mmKeys : List (ExtraKey B))
    (startTokenIdx endTokenIdx : Nat) : Option (List (ExtraKey B)) :=
  let extraKeys := genLoRAExtraHashKeys r ++ mmKeys ++ genCacheSaltKeys r startTokenIdx ++
    genPromptEmbedsExtraHashKeys cfg r startTokenIdx endTokenIdx
  if extraKeys.isEmpty then none else some extraKeys

/-- `generate_block_hash_extra_keys`. -/
def generateBlockHashExtraKeys (r : RequestInputs E)
    (startTokenIdx endTokenIdx startMMIdx : Nat) : Option (List (ExtraKey B)) × Nat :=
  let mm := genMMExtraHashKeys r.mmFeatures startTokenIdx endTokenIdx startMMIdx
  (joinExtraKeys cfg r mm.1 startTokenIdx endTokenIdx, mm.2)

/-- The rewinding loop of `generate_lookahead_block_hash_extra_keys`. -/
def rewindMMIdx (mmFeatures : List MultiModalFeatureSpec) (endTokenIdx : Nat) : Nat → Nat
  | 0 => 0
  | mmIdx + 1 =>
    match mmFeatures[mmIdx]? with
    | none => mmIdx + 1  -- not reached: the cursor never passes the end of the list
    | some f =>
      if f.mmPosition.stop ≤ endTokenIdx then mmIdx + 1
      else rewindMMIdx mmFeatures endTokenIdx mmIdx

/-- `generate_lookahead_block_hash_extra_keys`. -/
def generateLookaheadBlockHashExtraKeys (r : RequestInputs E)
    (startTokenIdx endTokenIdx hashEndTokenIdx startMMIdx : Nat) :
    Option (List (ExtraKey B)) × Nat :=
  let res := generateBlockHashExtraKeys cfg r startTokenIdx hashEndTokenIdx startMMIdx
  (res.1, rewindMMIdx r.mmFeatures endTokenIdx res.2)

end ExtraKeys

/-! ## The hasher -/

section Hasher

variable {B E : Type} (cfg : HasherConfig B E)

/-- `NONE_HASH`, the parent of a first block. -/
def noneHash : B := cfg.cachingHashFn (.seed cfg.noneHashSeed)

/-- `hash_block_tokens`. -/
def hashBlockTokens (parentBlockHash : Option B) (currBlockTokenIds : List Int)
    (extraKeys : BlockExtra B) : B :=
  let parent := match parentBlockHash with
    | none => noneHash cfg
    | some p => if cfg.truthy p then p else noneHash cfg
  cfg.cachingHashFn (.block parent currBlockTokenIds extraKeys)

/-- The extra keys and the next cursor for the block that starts at
`startTokenIdx` (the two branches in the loop of `request_block_hasher`). -/
def blockExtraKeys (r : RequestInputs E) (allTokenIds : List Int)
    (startTokenIdx currMMIdx : Nat) : BlockExtra B × Nat :=
  let endTokenIdx := startTokenIdx + cfg.hashBlockSize
  if cfg.numHashLookaheadTokens ≠ 0 then
    let hashEndTokenIdx := endTokenIdx + cfg.numHashLookaheadTokens
    let res := generateLookaheadBlockHashExtraKeys cfg r startTokenIdx endTokenIdx
      hashEndTokenIdx currMMIdx
    let tokens :=
      if cfg.numHashLookaheadTokens = 1 then allTokenIds[endTokenIdx]?.toList
      else slice allTokenIds endTokenIdx hashEndTokenIdx
    (.lookahead res.1 tokens, res.2)
  else
    let res := generateBlockHashExtraKeys cfg r startTokenIdx endTokenIdx currMMIdx
    (.plain res.1, res.2)

/-- The loop of `request_block_hasher`. The source compares with
`num_tokens - L`, which may be negative; here `L` is on the other side. -/
def hashLoop (r : RequestInputs E) (allTokenIds : List Int) :
    Nat → Nat → Nat → Option B → List B
  | 0, _, _, _ => []
  | fuel + 1, startTokenIdx, currMMIdx, prevBlockHash =>
    let endTokenIdx := startTokenIdx + cfg.hashBlockSize
    if allTokenIds.length < endTokenIdx + cfg.numHashLookaheadTokens then []
    else
      let extra := blockExtraKeys cfg r allTokenIds startTokenIdx currMMIdx
      let blockHash := hashBlockTokens cfg prevBlockHash
        (slice allTokenIds startTokenIdx endTokenIdx) extra.1
      blockHash :: hashLoop r allTokenIds fuel endTokenIdx extra.2 (some blockHash)

/-- The lower end of `get_mm_features_in_window`: `bisect_left` of
`start + 1` on the ends of the features. -/
def getMMFeaturesInWindowLo (mmFeatures : List MultiModalFeatureSpec) (start : Nat) : Nat :=
  bisectLeft
    (fun i => match mmFeatures[i]? with
      | none => false
      | some f => decide (f.mmPosition.stop < start + 1))
    mmFeatures.length

/-- The cursor a call of the hasher starts with. -/
def initialMMIdx (mmFeatures : List MultiModalFeatureSpec) (startTokenIdx : Nat) : Nat :=
  match mmFeatures.getLast? with
  | none => 0
  | some last =>
    if 0 < startTokenIdx ∧ startTokenIdx < last.mmPosition.stop then
      getMMFeaturesInWindowLo mmFeatures startTokenIdx
    else 0

/-- `request_block_hasher`: the hashes of the blocks that have none yet. Each
round moves `startTokenIdx` on by a positive block size, so the number of
tokens bounds the rounds. -/
def requestBlockHasher (r : Request B E) : List B :=
  let startTokenIdx := r.blockHashes.length * cfg.hashBlockSize
  if r.numTokens < startTokenIdx + cfg.hashBlockSize + cfg.numHashLookaheadTokens then []
  else
    hashLoop cfg r.toRequestInputs r.allTokenIds r.numTokens startTokenIdx
      (initialMMIdx r.mmFeatures startTokenIdx) r.blockHashes.getLast?

/-- `Request.update_block_hashes`. -/
def Request.updateBlockHashes (r : Request B E) : Request B E :=
  { r with blockHashes := r.blockHashes ++ requestBlockHasher cfg r }

/-- A new request: its hashes are computed from the prompt. -/
def Request.new (inputs : RequestInputs E) (promptTokenIds : List Int) : Request B E :=
  Request.updateBlockHashes cfg
    { toRequestInputs := inputs, allTokenIds := promptTokenIds, blockHashes := [] }

/-- `Request.append_output_token_ids`. -/
def Request.appendOutputTokenIds (r : Request B E) (tokenIds : List Int) : Request B E :=
  Request.updateBlockHashes cfg { r with allTokenIds := r.allTokenIds ++ tokenIds }

end Hasher

/-! ## The free digest -/

/-- Digests without collisions: the digest of an input is the input. -/
inductive FreeDigest where
  | of (input : HashInput FreeDigest)

/-- A hasher over free digests, with the sources' default seed. -/
def freeConfig (hashBlockSize : Nat) (hpos : 0 < hashBlockSize) (lookahead : Nat) :
    HasherConfig FreeDigest Int where
  hashBlockSize := hashBlockSize
  hashBlockSize_pos := hpos
  numHashLookaheadTokens := lookahead
  cachingHashFn := .of
  truthy _ := true
  noneHashSeed := "vllm-none-hash"
  embedsDigest rows := .of (.block (.of (.seed "")) rows (.plain none))

/-- Inputs with multimodal features only. -/
def mmInputs (fs : List MultiModalFeatureSpec) : RequestInputs Int where
  mmFeatures := fs
  loraRequest := none
  cacheSalt := none
  cacheSalt_ne := by simp
  promptEmbeds := none

end Vllm.Hashing
