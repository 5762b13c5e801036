import Vllm.Library.Fallible
import Vllm.StructuredOutput.Acceptance

/-!
# Masks and acceptance agree

`grammar_bitmask` over a batch of requests, each at any point of its life (`call`): every
grammar is left as it was, and drafts and a last token that the rows of a request allow are
accepted (`sampled_tokens_accepted`).
-/

namespace Vllm.StructuredOutput

open Library List

variable {S : Type} {m : Machine S} {config : ManagerConfig}

/-! ## The life of a request -/

/-- The calls that a request goes through between two steps. -/
inductive Call
  | bitmask (parallel : Bool) (reqTokens : List (Option Nat)) (grammarIdx : Nat)
      (rows : Nat → Row)
  | trim (specTokens : List (Option Nat))
  /-- the scheduler appends the tokens first -/
  | accept (newTokenIds : List Nat)

def appendTokens (request : Request S) (newTokenIds : List Nat) : Request S :=
  { request with allTokenIds := request.allTokenIds ++ newTokenIds }

def call (m : Machine S) (config : ManagerConfig) (request : Request S) :
    Call → Except Fault (Request S)
  | .bitmask parallel reqTokens grammarIdx rows =>
    match request.structuredOutputRequest with
    | none => .error .attributeError
    | some r =>
      let r := (fillRequest m config parallel request r reqTokens grammarIdx rows).2
      .ok { request with structuredOutputRequest := some r }
  | .trim specTokens => .ok (trimSpecTokens m config request specTokens).2
  | .accept newTokenIds =>
    .ok (acceptTokens m config (appendTokens request newTokenIds) newTokenIds).2

/-- A request as it arrives. -/
def Fresh (request : Request S) : Prop :=
  ∀ r ∈ request.structuredOutputRequest, r.maskedReasoningEndIds = none

/-- A request that any calls have brought here. -/
def Alive (m : Machine S) (config : ManagerConfig) (request : Request S) : Prop :=
  ∃ fresh, Fresh fresh ∧ Reaches (fun _ _ => True) (call m config) fresh request

theorem fillRequest_kept (hdiffusion : config.isDiffusion = false) (parallel : Bool)
    (request : Request S) (r : StructuredOutputRequest S) (reqTokens : List (Option Nat))
    (grammarIdx : Nat) (rows : Nat → Row) :
    Kept m r (fillRequest m config parallel request r reqTokens grammarIdx rows).2 := by
  cases parallel with
  | true =>
    simp only [fillRequest, if_true, fillParallel_eq hdiffusion]
    exact fillSerial_kept hdiffusion
  | false => exact fillSerial_kept hdiffusion

theorem trimSpecTokens_kept {request : Request S} {r : StructuredOutputRequest S}
    (hr : request.structuredOutputRequest = some r) (specTokens : List (Option Nat)) :
    ∃ r', (trimSpecTokens m config request specTokens).2.structuredOutputRequest = some r' ∧
      Kept m r r' := by
  refine ⟨_, ?_, getConstraintBounds_kept config request.promptTokenIds request.allTokenIds
    (stripSpeculativePadding specTokens) r false⟩
  simp only [trimSpecTokens, hr]
  split
  · rfl
  · split <;> rfl

/-- Only a request whose reasoning has ended has its grammar advanced. -/
theorem acceptTokens_kept {request : Request S} {r : StructuredOutputRequest S}
    (hr : request.structuredOutputRequest = some r) (newTokenIds : List Nat) :
    ∃ r', (acceptTokens m config request newTokenIds).2.structuredOutputRequest = some r' ∧
      (Kept m r r' ∨ r'.reasoningEnded = some true) := by
  simp only [acceptTokens, hr]
  split
  · exact ⟨r, hr, Or.inl ⟨rfl, rfl, Iff.rfl, Or.inl rfl⟩⟩
  split
  · exact ⟨_, rfl, Or.inl (getConstraintBounds_kept ..)⟩
  · exact ⟨_, rfl, Or.inr rfl⟩

/-- The cache of masked tokens stays right as long as the request reasons. -/
theorem call_cacheOk (hdiffusion : config.isDiffusion = false) {request request' : Request S}
    {c : Call} (hcall : call m config request c = .ok request')
    (hcache : ∀ r ∈ request.structuredOutputRequest, CacheOk m r) :
    ∀ r ∈ request'.structuredOutputRequest, CacheOk m r := by
  cases hr : request.structuredOutputRequest with
  | none =>
    have hnone : request'.structuredOutputRequest = none := by
      cases c with
      | bitmask parallel reqTokens grammarIdx rows => simp only [call, hr] at hcall; cases hcall
      | trim specTokens =>
        simp only [call, trimSpecTokens, hr] at hcall
        cases hcall
        exact hr
      | accept newTokenIds =>
        simp only [call, acceptTokens, appendTokens, hr] at hcall
        cases hcall
        rfl
    exact fun r hr' => by simp [hnone] at hr'
  | some r =>
    obtain ⟨r', hr', hkept⟩ : ∃ r', request'.structuredOutputRequest = some r' ∧
        (Kept m r r' ∨ r'.reasoningEnded = some true) := by
      cases c with
      | bitmask parallel reqTokens grammarIdx rows =>
        simp only [call, hr] at hcall
        cases hcall
        exact ⟨_, rfl, Or.inl (fillRequest_kept hdiffusion ..)⟩
      | trim specTokens =>
        cases hcall
        obtain ⟨r', hr', hkept⟩ := trimSpecTokens_kept hr specTokens
        exact ⟨r', hr', Or.inl hkept⟩
      | accept newTokenIds =>
        cases hcall
        exact @acceptTokens_kept S m config (appendTokens request newTokenIds) r hr newTokenIds
    intro r'' hr''
    cases hr'.symm.trans hr''
    rcases hkept with hkept | hended
    · exact hkept.cacheOk (hcache r hr)
    · exact fun hnot => absurd hended hnot

theorem Alive.cacheOk (hdiffusion : config.isDiffusion = false) {request : Request S}
    (h : Alive m config request) : ∀ r ∈ request.structuredOutputRequest, CacheOk m r := by
  obtain ⟨fresh, hfresh, hreach⟩ := h
  refine hreach.invariant (P := fun request => ∀ r ∈ request.structuredOutputRequest, CacheOk m r)
    (fun r hr _ masked hmasked => ?_)
    fun _ _ _ hcache _ hcall => call_cacheOk hdiffusion hcall hcache
  rw [hfresh r hr] at hmasked
  cases hmasked

/-! ## A batch of requests -/

variable {Id : Type} [DecidableEq Id]

def draftsOf (scheduledSpecDecodeTokens : Dict Id (List (Option Nat))) (id : Id) :
    List (Option Nat) :=
  (scheduledSpecDecodeTokens.get? id).getD []

/-- What a batch leaves for the request with index `j`: its own rows and its own turn. -/
def Served (m : Machine S) (config : ManagerConfig) (drafts : List (Option Nat)) (j : Nat)
    (request : Request S) (r : StructuredOutputRequest S)
    (after : (Nat → Row) × Option (Request S)) : Prop :=
  ∃ rows, after.2 = some ⟨request.promptTokenIds, request.allTokenIds,
      some (fillSerial m config request r drafts (j * maskStride config) rows).2⟩ ∧
    ∀ i ≤ drafts.length, after.1 (j * maskStride config + i) =
      (fillSerial m config request r drafts (j * maskStride config) rows).1
        (j * maskStride config + i)

/-- Both branches fill the rows of a request as the serial one does. -/
theorem fillRequest_eq (hdiffusion : config.isDiffusion = false) {parallel : Bool}
    (hparallel : parallel = true → config.numSpeculativeTokens = 0) {request : Request S}
    {r : StructuredOutputRequest S} {drafts : List (Option Nat)}
    (hdrafts : drafts.length ≤ config.numSpeculativeTokens) {grammarIdx : Nat}
    {rows : Nat → Row} :
    fillRequest m config parallel request r drafts grammarIdx rows =
      fillSerial m config request r drafts (grammarIdx * maskStride config) rows := by
  cases parallel with
  | false => rfl
  | true =>
    rw [hparallel rfl] at hdrafts
    obtain rfl := eq_nil_of_length_eq_zero (Nat.le_zero.1 hdrafts)
    simp only [fillRequest, if_true, fillParallel_eq hdiffusion, maskStride, hparallel rfl,
      hdiffusion, Bool.false_eq_true, if_false, Nat.zero_add, Nat.mul_one]

/-- The loop of `grammar_bitmask` from index `start` on. -/
theorem fillAll (hdiffusion : config.isDiffusion = false) {parallel : Bool}
    (hparallel : parallel = true → config.numSpeculativeTokens = 0)
    (scheduled : Dict Id (List (Option Nat))) {ids : List Id} (hids : ids.Nodup)
    (hdrafts : ∀ id ∈ ids, (draftsOf scheduled id).length ≤ config.numSpeculativeTokens)
    (start : Nat) (acc : (Nat → Row) × Dict Id (Request S))
    (hrequests : ∀ id ∈ ids, ∃ request r, acc.2.get? id = some request ∧
      request.structuredOutputRequest = some r) :
    ∃ acc', (ids.zipIdx start).foldlM (fillNext m config parallel scheduled) acc = .ok acc' ∧
      (∀ id ∉ ids, acc'.2.get? id = acc.2.get? id) ∧
      (∀ index < start * maskStride config, acc'.1 index = acc.1 index) ∧
      ∀ j id request r, ids[j]? = some id → acc.2.get? id = some request →
        request.structuredOutputRequest = some r →
        Served m config (draftsOf scheduled id) (start + j) request r
          (acc'.1, acc'.2.get? id) := by
  induction ids generalizing start acc with
  | nil => exact ⟨acc, rfl, fun _ _ => rfl, fun _ _ => rfl, fun _ _ _ _ h => nomatch h⟩
  | cons first ids ih =>
    obtain ⟨request, r, hrequest, hr⟩ := hrequests first mem_cons_self
    obtain ⟨hfirst, hnodup⟩ := nodup_cons.1 hids
    have hstride : (draftsOf scheduled first).length + 1 ≤ maskStride config := by
      have := hdrafts first mem_cons_self
      simp only [maskStride, hdiffusion, Bool.false_eq_true, if_false]
      omega
    set filled := fillSerial m config request r (draftsOf scheduled first)
      (start * maskStride config) acc.1 with hfilled
    set request' : Request S :=
      { request with structuredOutputRequest := some filled.2 } with hrequest'
    have hnext : fillNext m config parallel scheduled acc (first, start) =
        .ok (filled.1, acc.2.insert first request') := by
      have hserial := @fillRequest_eq S m config hdiffusion parallel hparallel request r
        (draftsOf scheduled first) (hdrafts first mem_cons_self) start acc.1
      unfold draftsOf at hserial
      simp only [fillNext, hrequest, hr, hserial]
      rfl
    have hothers : ∀ id, id ≠ first →
        (acc.2.insert first request').get? id = acc.2.get? id :=
      fun id hne => Dict.get?_insert_of_ne _ _ hne
    have hapart : ∀ id ∈ ids, id ≠ first := fun id hid heq => hfirst (heq ▸ hid)
    obtain ⟨acc', hrun, hkept, hrows, hserved⟩ := ih hnodup
      (fun id hid => hdrafts id (mem_cons_of_mem _ hid)) (start + 1)
      (filled.1, acc.2.insert first request') (fun id hid => by
        obtain ⟨request₁, r₁, hget, hr₁⟩ := hrequests id (mem_cons_of_mem _ hid)
        exact ⟨request₁, r₁, (hothers id (hapart id hid)).trans hget, hr₁⟩)
    refine ⟨acc', ?_, ?_, ?_, ?_⟩
    · rw [zipIdx_cons, foldlM_cons, hnext]
      exact hrun
    · intro id hid
      rw [mem_cons, not_or] at hid
      rw [hkept id hid.2]
      exact hothers id hid.1
    · intro index hindex
      rw [hrows index (by rw [Nat.succ_mul]; omega)]
      exact fillSerial_frame hdiffusion fun i _ => by omega
    · intro j id request₁ r₁ hj hget hr₁
      cases j with
      | zero =>
        obtain rfl : first = id := by simpa using hj
        cases hrequest.symm.trans hget
        cases hr.symm.trans hr₁
        refine ⟨acc.1, ?_, fun i hi => ?_⟩
        · rw [hkept first hfirst, Dict.get?_insert_self]
          rfl
        · exact hrows _ (by rw [Nat.succ_mul, Nat.add_zero]; omega)
      | succ j =>
        have hid : id ∈ ids := mem_of_getElem? hj
        have hserved' := hserved j id request₁ r₁ hj ((hothers id (hapart id hid)).trans hget) hr₁
        rw [Nat.add_right_comm] at hserved'
        exact hserved'

/-- Masks and acceptance agree: for requests at any point of their life, `grammar_bitmask`
returns, with a mask if there are requests to mask, leaves every grammar as it was, and the drafts
that their rows allow, followed by a token that the next row allows before the grammar has
terminated, are accepted. -/
theorem sampled_tokens_accepted (hdiffusion : config.isDiffusion = false)
    {requests : Dict Id (Request S)} {ids : List Id} {scheduled : Dict Id (List (Option Nat))}
    (hids : ids.Nodup)
    (hdrafts : ∀ id ∈ ids, (draftsOf scheduled id).length ≤ config.numSpeculativeTokens)
    (hrequests : ∀ id ∈ ids, ∃ request r, requests.get? id = some request ∧
      request.structuredOutputRequest = some r)
    (halive : ∀ id request, requests.get? id = some request → Alive m config request)
    (hstable : ∀ id request r reasoner, requests.get? id = some request →
      request.structuredOutputRequest = some r → r.reasoner = some reasoner → reasoner.Stable)
    (rows : Nat → Row) :
    ∃ result requests', grammarBitmask m config requests ids scheduled rows =
        .ok (result, requests') ∧ (ids ≠ [] → result.isSome = true) ∧
      ∀ id request r, requests.get? id = some request →
        request.structuredOutputRequest = some r →
        ∃ r', requests'.get? id =
            some ⟨request.promptTokenIds, request.allTokenIds, some r'⟩ ∧
          r'.grammar = r.grammar ∧
          ∀ j bitmask kept token, ids[j]? = some id → result = some bitmask →
            (draftsOf scheduled id).take kept.length = kept.map some →
            (∀ i draft, kept[i]? = some draft →
              (bitmask (j * maskStride config + i)).allows draft = true) →
            (bitmask (j * maskStride config + kept.length)).allows token = true →
            (r.grammar.acceptTokens m (kept.drop (getConstraintBounds config
              request.promptTokenIds request.allTokenIds r
                (stripSpeculativePadding (draftsOf scheduled id))
                false).1.grammarStart)).2.isTerminated m = false →
            (acceptTokens m config
              ⟨request.promptTokenIds, request.allTokenIds ++ (kept ++ [token]), some r'⟩
              (kept ++ [token])).1 = true := by
  by_cases hnil : ids = []
  · subst hnil
    refine ⟨none, requests, rfl, fun hne => absurd rfl hne,
      fun id request r hget hr => ⟨r, ?_, rfl, ?_⟩⟩
    · rw [hget, ← hr]
    · intro j _ _ _ hj
      cases hj
  set parallel := decide (fillBitmaskParallelThreshold < ids.length) &&
    config.numSpeculativeTokens == 0 with hparallel
  have hnospec : parallel = true → config.numSpeculativeTokens = 0 := by
    intro h
    rw [Bool.and_eq_true, beq_iff_eq] at h
    exact h.2
  obtain ⟨acc, hrun, hothers, -, hserved⟩ := @fillAll S m config Id _ hdiffusion parallel
    hnospec scheduled ids hids hdrafts 0 (rows, requests) hrequests
  refine ⟨some acc.1, acc.2, ?_, fun _ => rfl, fun id request r hget hr => ?_⟩
  · rw [grammarBitmask, if_neg hnil]
    simp only [← hparallel, hrun]
    rfl
  by_cases hid : id ∈ ids
  · obtain ⟨j, hj⟩ := mem_iff_getElem?.1 hid
    obtain ⟨before, hafter, hrows⟩ := hserved j id request r hj hget hr
    rw [Nat.zero_add] at hafter hrows
    refine ⟨_, hafter, (fillSerial_kept hdiffusion).grammar, ?_⟩
    intro j' bitmask kept token hj' hbitmask hkept hallowed hlast hterm
    obtain rfl : j' = j := (getElem?_inj (List.getElem?_eq_some_iff.1 hj').1 hids).1
      (hj'.trans hj.symm)
    cases hbitmask
    have hlength : kept.length ≤ (draftsOf scheduled id).length := by
      have := congrArg List.length hkept
      rw [length_take, length_map] at this
      omega
    refine fillSerial_agrees hdiffusion (fun reasoner hreasoner =>
      hstable id request r reasoner hget hr hreasoner)
      ((halive id request hget).cacheOk hdiffusion r hr) hkept ?_ ?_ hterm
    · intro i draft hi
      rw [← hrows i (by have := (List.getElem?_eq_some_iff.1 hi).1; omega)]
      exact hallowed i draft hi
    · rw [← hrows _ hlength]
      exact hlast
  · refine ⟨r, ?_, rfl, fun j _ _ _ hj => absurd (mem_of_getElem? hj) hid⟩
    rw [hothers id hid, hget, ← hr]

/-! ## A request that starts its content with the token that ends reasoning -/

/-- The machine that counts from its state to 5. -/
def counter : Machine Nat where
  acceptToken := fun s token => if token = s then some (s + 1) else none
  isTerminated := fun s => s == 5

def sampleConfig : ManagerConfig := ⟨3, false, false⟩

/-- Tokens 1 and 7 end reasoning, and 1 is content as well. -/
def sampleReasoner : Reasoner := ⟨fun _ => false, fun _ _ => false, some ⟨[1, 7], some 7⟩⟩

def sampleRequest : Request Nat :=
  ⟨[9], [9], some ⟨⟨1, []⟩, some sampleReasoner, none, none⟩⟩

def sampleRequests : Dict Nat (Request Nat) := Dict.empty.insert 0 sampleRequest

def sampleDrafts : Dict Nat (List (Option Nat)) := Dict.empty.insert 0 [some 4, some 1, none]

theorem sampled_tokens_accepted_sample :
    ∃ r', (acceptTokens counter sampleConfig ⟨[9], [9, 4, 1, 2], some r'⟩ [4, 1, 2]).1 = true ∧
      r'.grammar = ⟨1, []⟩ := by
  have hget : ∀ id request, sampleRequests.get? id = some request →
      id = 0 ∧ request = sampleRequest := by
    intro id request h
    rw [sampleRequests, Dict.get?_insert] at h
    split at h
    · exact ⟨‹_›, (Option.some.inj h).symm⟩
    · cases h
  obtain ⟨result, requests', hrun, -, hall⟩ := @sampled_tokens_accepted Nat counter
    sampleConfig Nat _ rfl sampleRequests [0] sampleDrafts (nodup_singleton 0) (by decide)
    (fun id hid => ⟨sampleRequest, _, by rw [mem_singleton.1 hid]; rfl, rfl⟩)
    (fun id request h => ⟨request, by
      obtain ⟨-, rfl⟩ := hget id request h
      intro r hr
      cases hr
      rfl, .refl⟩)
    (fun id request r reasoner h hr hreasoner hids => by
      obtain ⟨-, rfl⟩ := hget id request h
      cases hr
      cases hreasoner
      cases hids _ rfl)
    (fun _ _ => 0)
  have hrows : ((grammarBitmask counter sampleConfig sampleRequests [0] sampleDrafts
      (fun _ _ => 0)).toOption.bind fun out => out.1.map fun rows =>
        ((rows 0).allows 4, (rows 1).allows 1, (rows 2).allows 2)) = some (true, true, true) := by
    decide +kernel
  rw [hrun] at hrows
  obtain ⟨bitmask, hbitmask, hallowed⟩ := Option.map_eq_some_iff.1 hrows
  obtain ⟨r', -, hgrammar, haccept⟩ := hall 0 sampleRequest _ rfl rfl
  simp only [Prod.mk.injEq] at hallowed
  refine ⟨r', haccept 0 bitmask [4, 1] 2 rfl hbitmask rfl ?_ ?_ (by decide +kernel), hgrammar⟩
  · intro i draft hi
    match i with
    | 0 => cases hi; exact hallowed.1
    | 1 => cases hi; exact hallowed.2.1
    | i + 2 => cases hi
  · exact hallowed.2.2

end Vllm.StructuredOutput
