import Vllm.Engine.OutputProcessor

/-!
# The output collectors

`RequestOutputCollector` and `StreamingInputOutputCollector` of `v1/engine/output_processor.py`,
with `RequestOutput.add` of `outputs.py`. The engine puts the outputs of a request and the
consumer gets them; outputs that were not fetched in time are merged by completion index, but not
across the end of an input chunk. `run_collects` says that over every run of puts and gets what
was fetched and what still waits is what was put, cut into runs of outputs that were merged.

Exceptions and pooling outputs are not put here. Of a completion the fields are kept that `add`
concatenates for every request or that end it; log probabilities, masks and the other fields
are left out.
-/

namespace Vllm.Engine.Collectors

open List

/-- A `RequestOutput` of a text request, with what the collectors read. -/
structure RequestOutput where
  outputs : List CompletionOutput
  finished : Bool
  deriving DecidableEq, Repr

def mergeCompletion (completion next : CompletionOutput) : CompletionOutput where
  index := completion.index
  text := completion.text ++ next.text
  tokenIds := completion.tokenIds ++ next.tokenIds
  finishReason := next.finishReason
  stopReason := next.stopReason

/-- The inner loop of `add`: the first completion of the index is merged with `next` or replaced
by it, and `next` is appended if there is none. -/
def addCompletion (aggregate : Bool) (next : CompletionOutput) :
    List CompletionOutput → List CompletionOutput
  | [] => [next]
  | completion :: rest =>
    if completion.index = next.index then
      (if aggregate then mergeCompletion completion next else next) :: rest
    else completion :: addCompletion aggregate next rest

def RequestOutput.add (output nextOutput : RequestOutput) (aggregate : Bool) : RequestOutput where
  finished := output.finished || nextOutput.finished
  outputs := nextOutput.outputs.foldl (fun outputs next => addCompletion aggregate next outputs)
    output.outputs

structure RequestOutputCollector where
  aggregate : Bool
  output : Option RequestOutput := none
  ready : Bool := false
  deriving DecidableEq, Repr

namespace RequestOutputCollector

def put (c : RequestOutputCollector) (output : RequestOutput) : RequestOutputCollector :=
  match c.output with
  | none => { c with output := some output, ready := true }
  | some waiting => { c with output := some (waiting.add output c.aggregate) }

def getNowait (c : RequestOutputCollector) : Option RequestOutput × RequestOutputCollector :=
  match c.output with
  | none => (none, c)
  | some output => (some output, { c with output := none, ready := false })

end RequestOutputCollector

def isChunkBoundary : Option RequestOutput → Bool
  | none => false
  | some output => !output.finished && output.outputs.any CompletionOutput.finished

structure StreamingInputOutputCollector extends RequestOutputCollector where
  backlog : List RequestOutput := []
  deriving DecidableEq, Repr

namespace StreamingInputOutputCollector

def new (outputKind : RequestOutputKind) : StreamingInputOutputCollector where
  aggregate := outputKind = .delta

def put (c : StreamingInputOutputCollector) (output : RequestOutput) :
    StreamingInputOutputCollector :=
  if c.backlog ≠ [] ∨ isChunkBoundary c.output then
    match c.backlog.getLast? with
    | some last =>
      if !isChunkBoundary (some last) then
        { c with backlog := c.backlog.dropLast ++ [last.add output c.aggregate] }
      else { c with backlog := c.backlog ++ [output] }
    | none => { c with backlog := c.backlog ++ [output] }
  else { c with toRequestOutputCollector := c.toRequestOutputCollector.put output }

def getNowait (c : StreamingInputOutputCollector) :
    Option RequestOutput × StreamingInputOutputCollector :=
  let (output, base) := c.toRequestOutputCollector.getNowait
  match c.backlog with
  | [] => (output, { c with toRequestOutputCollector := base })
  | next :: rest =>
    (output, { aggregate := base.aggregate, output := some next, ready := true, backlog := rest })

/-- `none` is a call that still waits for `ready`. -/
def get (c : StreamingInputOutputCollector) :
    Option (RequestOutput × StreamingInputOutputCollector) :=
  match c.getNowait with
  | (some output, c') => some (output, c')
  | (none, _) => none

end StreamingInputOutputCollector

inductive Op
  | put (output : RequestOutput)
  | get
  | getNowait
  deriving DecidableEq, Repr

def Op.puts : List Op → List RequestOutput
  | [] => []
  | .put output :: ops => output :: puts ops
  | .get :: ops => puts ops
  | .getNowait :: ops => puts ops

namespace StreamingInputOutputCollector

/-- One call, with what it returns. -/
def step (c : StreamingInputOutputCollector) :
    Op → List RequestOutput × StreamingInputOutputCollector
  | .put output => ([], c.put output)
  | .get =>
    match c.get with
    | some (output, c') => ([output], c')
    | none => ([], c)
  | .getNowait => (c.getNowait.1.toList, c.getNowait.2)

def run (c : StreamingInputOutputCollector) :
    List Op → List RequestOutput × StreamingInputOutputCollector
  | [] => ([], c)
  | op :: ops =>
    let (returned, c') := c.step op
    let (later, last) := run c' ops
    (returned ++ later, last)

/-- The outputs that were put and not returned yet, in the order they will be returned. -/
def pending (c : StreamingInputOutputCollector) : List RequestOutput := c.output.toList ++ c.backlog

end StreamingInputOutputCollector

/-! ### What merging keeps -/

section contents

variable {α : Type} (f : CompletionOutput → List α) (index : Nat)

/-- What `f` reads off the completions of an index, in order. -/
def contents (outputs : List CompletionOutput) : List α :=
  outputs.flatMap fun x => if x.index = index then f x else []

def streamed (outs : List RequestOutput) : List α :=
  outs.flatMap fun o => contents f index o.outputs

def Indexed (outputs : List CompletionOutput) : Prop := (outputs.map (·.index)).Nodup

/-- An output after which more is to come: it is not finished and ends no chunk. -/
structure RequestOutput.Open (o : RequestOutput) : Prop where
  finished : o.finished = false
  unended : ∀ x ∈ o.outputs, x.finished = false

variable {next x : CompletionOutput} {outs nexts : List CompletionOutput}

theorem mem_addCompletion (h : x ∈ addCompletion true next outs) :
    x ∈ outs ∨ x.index = next.index := by
  induction outs with
  | nil =>
    rw [addCompletion, mem_singleton] at h
    exact .inr (congrArg _ h)
  | cons c rest ih =>
    rw [addCompletion] at h
    split at h
    next heq =>
      rcases mem_cons.mp h with rfl | hrest
      · exact .inr heq
      · exact .inl (mem_cons_of_mem c hrest)
    next =>
      rcases mem_cons.mp h with rfl | hrest
      · exact .inl mem_cons_self
      · exact (ih hrest).imp_left (mem_cons_of_mem c)

theorem Indexed.addCompletion (h : Indexed outs) : Indexed (addCompletion true next outs) := by
  induction outs with
  | nil => exact nodup_singleton _
  | cons c rest ih =>
    obtain ⟨hc, hrest⟩ := nodup_cons.mp h
    rw [Collectors.addCompletion]
    split
    next => exact h
    next hne =>
      refine nodup_cons.mpr ⟨fun hmem => ?_, ih hrest⟩
      obtain ⟨x, hx, hxc⟩ := mem_map.mp hmem
      rcases mem_addCompletion hx with hx | hx
      · exact hc (hxc ▸ mem_map_of_mem hx)
      · exact hne (hxc.symm.trans hx)

-- merging keeps what `f` reads off completions that are `ok` to merge into
variable {ok : CompletionOutput → Prop}
  (hmerge : ∀ c d : CompletionOutput, ok c → f (mergeCompletion c d) = f c ++ f d)
include hmerge

theorem contents_addCompletion (hindexed : Indexed outs)
    (hopen : ∀ x ∈ outs, x.index = next.index → ok x) :
    contents f index (addCompletion true next outs) =
      contents f index outs ++ contents f index [next] := by
  induction outs with
  | nil => rfl
  | cons c rest ih =>
    obtain ⟨hc, hrest⟩ := nodup_cons.mp hindexed
    rw [addCompletion]
    split
    next heq =>
      -- no other completion has the index, so what `next` brings comes last
      have hfirst := hmerge c next (hopen c mem_cons_self heq)
      have hnone : next.index = index → contents f index rest = [] := by
        intro hi
        refine flatMap_eq_nil_iff.mpr fun x hx => if_neg fun hxi => hc ?_
        exact mem_map.mpr ⟨x, hx, hxi.trans (heq.trans hi).symm⟩
      simp only [contents, flatMap_cons, flatMap_nil, append_nil] at hnone ⊢
      have hindex : (mergeCompletion c next).index = next.index := heq
      rw [if_pos trivial, hindex, heq]
      split
      next hi => rw [hnone hi, hfirst, append_nil, append_nil]
      next => rw [append_nil]
    next =>
      have hrest' := ih hrest fun x hx => hopen x (mem_cons_of_mem c hx)
      simp only [contents, flatMap_cons] at hrest' ⊢
      rw [hrest', append_assoc]

theorem contents_add {o n : RequestOutput} (ho : Indexed o.outputs) (hn : Indexed n.outputs)
    (hopen : ∀ x ∈ o.outputs, ok x) :
    Indexed (o.add n true).outputs ∧ contents f index (o.add n true).outputs =
      contents f index o.outputs ++ contents f index n.outputs := by
  have loop : ∀ (nexts outs : List CompletionOutput), Indexed nexts → Indexed outs →
      (∀ x ∈ outs, ∀ next ∈ nexts, x.index = next.index → ok x) →
      let result := nexts.foldl (fun outputs next => addCompletion true next outputs) outs
      Indexed result ∧ contents f index result =
        contents f index outs ++ contents f index nexts := by
    intro nexts
    induction nexts with
    | nil => exact fun outs _ houts _ => ⟨houts, (append_nil _).symm⟩
    | cons next rest ih =>
      intro outs hnexts houts hopen
      obtain ⟨hnext, hrest⟩ := nodup_cons.mp hnexts
      -- the completion that took `next` in has an index no later one has
      have hopen' : ∀ x ∈ addCompletion true next outs, ∀ later ∈ rest,
          x.index = later.index → ok x := by
        intro x hx later hlater hxl
        rcases mem_addCompletion hx with hx | hx
        · exact hopen x hx later (mem_cons_of_mem next hlater) hxl
        · exact absurd (mem_map.mpr ⟨later, hlater, hxl.symm.trans hx⟩) hnext
      obtain ⟨hindexed, hcontents⟩ := ih _ hrest houts.addCompletion hopen'
      refine ⟨hindexed, hcontents.trans ?_⟩
      rw [contents_addCompletion f index hmerge houts fun x hx =>
        hopen x hx next mem_cons_self, append_assoc]
      simp only [contents, flatMap_cons, flatMap_nil, append_nil]
  exact loop n.outputs o.outputs hn ho fun x hx _ _ _ => hopen x hx

end contents

def reasons (c : CompletionOutput) : List FinishReason := c.finishReason.toList

theorem reasons_merge (c d : CompletionOutput) (hc : c.finished = false) :
    reasons (mergeCompletion c d) = reasons c ++ reasons d := by
  have hnone : c.finishReason = none := Option.not_isSome_iff_eq_none.mp (ne_true_of_eq_false hc)
  rw [reasons, reasons, hnone, Option.toList_none]
  rfl

theorem unended_iff {outs : List CompletionOutput} :
    (∀ x ∈ outs, x.finished = false) ↔ ∀ i, contents reasons i outs = [] := by
  constructor
  · intro h i
    refine flatMap_eq_nil_iff.mpr fun x hx => ?_
    have hnone := Option.not_isSome_iff_eq_none.mp (ne_true_of_eq_false (h x hx))
    rw [reasons, hnone, Option.toList_none, ite_self]
  · intro h x hx
    have hnone := flatMap_eq_nil_iff.mp (h x.index) x hx
    rw [if_pos rfl, reasons, Option.toList_eq_nil_iff] at hnone
    exact congrArg Option.isSome hnone

/-- Nothing has ended after a merger if nothing had before. -/
theorem unended_add {o n : RequestOutput} (ho : Indexed o.outputs) (hn : Indexed n.outputs)
    (hopen : ∀ x ∈ o.outputs, x.finished = false) (hopen' : ∀ x ∈ n.outputs, x.finished = false) :
    ∀ x ∈ (o.add n true).outputs, x.finished = false := by
  refine unended_iff.mpr fun i => ?_
  rw [(contents_add reasons i reasons_merge ho hn hopen).2, unended_iff.mp hopen,
    unended_iff.mp hopen', append_nil]

/-- Outputs in the order they were put, at least one: each run of them is returned as one. -/
structure Block where
  first : RequestOutput
  rest : List RequestOutput

namespace Block

def members (b : Block) : List RequestOutput := b.first :: b.rest

def merged (b : Block) : RequestOutput := b.rest.foldl (fun o n => o.add n true) b.first

theorem merged_finished (b : Block) : b.merged.finished = b.members.any (·.finished) := by
  obtain ⟨o, os⟩ := b
  induction os generalizing o with
  | nil => exact (Bool.or_false _).symm
  | cons n os ih => exact (ih (o.add n true)).trans (Bool.or_assoc ..)

variable {b : Block} (hindexed : ∀ o ∈ b.members, Indexed o.outputs)
include hindexed

/-- A merger keeps what `f` reads, if all outputs but the last are `ok` to merge into and their
mergers are so as well. -/
theorem contents_merged {α : Type} (f : CompletionOutput → List α) (index : Nat)
    (ok : CompletionOutput → Prop) (hok : b.members.Pairwise fun o _ => ∀ x ∈ o.outputs, ok x)
    (hadd : ∀ {o n : RequestOutput}, Indexed o.outputs → Indexed n.outputs →
      (∀ x ∈ o.outputs, ok x) → (∀ x ∈ n.outputs, ok x) → ∀ x ∈ (o.add n true).outputs, ok x)
    (hmerge : ∀ c d : CompletionOutput, ok c → f (mergeCompletion c d) = f c ++ f d) :
    contents f index b.merged.outputs = streamed f index b.members := by
  obtain ⟨o, os⟩ := b
  induction os generalizing o with
  | nil => exact (append_nil _).symm
  | cons n os ih =>
    obtain ⟨hfirst, htail⟩ := pairwise_cons.mp hok
    obtain ⟨ho, hrest⟩ := forall_mem_cons.mp hindexed
    obtain ⟨hn, hos⟩ := forall_mem_cons.mp hrest
    obtain ⟨hindexed', hcontents⟩ := contents_add f index hmerge ho hn (hfirst n mem_cons_self)
    have hok' : (Block.mk (o.add n true) os).members.Pairwise fun o _ => ∀ x ∈ o.outputs, ok x := by
      obtain ⟨hnext, hlater⟩ := pairwise_cons.mp htail
      exact pairwise_cons.mpr ⟨fun later hmem => hadd ho hn (hfirst n mem_cons_self)
        (hnext later hmem), hlater⟩
    refine (ih (o.add n true) (forall_mem_cons.mpr ⟨hindexed', hos⟩) hok').trans ?_
    rw [members, streamed, flatMap_cons, hcontents, append_assoc]
    rfl

/-- The finish reasons of a block in which nothing follows a finished output or the end of a
chunk. -/
theorem reasons_merged (hopens : b.members.Pairwise fun o _ => o.Open) (index : Nat) :
    contents reasons index b.merged.outputs = streamed reasons index b.members :=
  contents_merged hindexed reasons index (·.finished = false) (hopens.imp fun ho => ho.unended)
    unended_add reasons_merge

theorem open_of_merged (hopens : b.members.Pairwise fun o _ => o.Open) (hb : b.merged.Open) :
    ∀ o ∈ b.members, o.Open := by
  intro o ho
  have hfinished := b.merged_finished.symm.trans hb.finished
  refine ⟨eq_false_of_ne_true (any_eq_false.mp hfinished o ho), ?_⟩
  refine unended_iff.mpr fun i => ?_
  have hall := (reasons_merged hindexed hopens i).symm.trans (unended_iff.mp hb.unended i)
  exact flatMap_eq_nil_iff.mp hall o ho

end Block

/-! ### Runs -/

namespace StreamingInputOutputCollector

/-- The slot of a collector of deltas is filled before its backlog. -/
structure Inv (c : StreamingInputOutputCollector) : Prop where
  aggregate : c.aggregate = true
  slot : c.output = none → c.backlog = []

variable {c : StreamingInputOutputCollector}

/-- An output that is put waits on its own or is merged into the last one that waits, which then
ended no chunk. -/
theorem put_cases (h : c.Inv) (output : RequestOutput) :
    (c.put output).Inv ∧ ((c.put output).pending = c.pending ++ [output] ∨
      ∃ before last, c.pending = before ++ [last] ∧ isChunkBoundary (some last) = false ∧
        (c.put output).pending = before ++ [last.add output true]) := by
  obtain ⟨⟨aggregate, slot, ready⟩, backlog⟩ := c
  obtain ⟨rfl : aggregate = true, hslot⟩ := h
  cases slot with
  | none =>
    obtain rfl : backlog = [] := hslot rfl
    exact ⟨⟨rfl, nofun⟩, .inl rfl⟩
  | some waiting =>
    rcases eq_nil_or_concat' backlog with rfl | ⟨front, last, rfl⟩
    · rw [put]
      cases hb : isChunkBoundary (some waiting) with
      | true => exact ⟨⟨rfl, nofun⟩, .inl rfl⟩
      | false => exact ⟨⟨rfl, nofun⟩, .inr ⟨[], waiting, rfl, hb, rfl⟩⟩
    · rw [put, if_pos (.inl (append_ne_nil_of_right_ne_nil front (cons_ne_nil last [])))]
      simp only [getLast?_concat, dropLast_concat]
      cases hb : isChunkBoundary (some last) with
      | true => exact ⟨⟨rfl, nofun⟩, .inl (append_assoc (waiting :: _) _ _).symm⟩
      | false => exact ⟨⟨rfl, nofun⟩, .inr ⟨waiting :: front, last, rfl, hb, rfl⟩⟩

theorem getNowait_pending (h : c.Inv) :
    c.getNowait.2.Inv ∧ c.getNowait.1.toList ++ c.getNowait.2.pending = c.pending := by
  obtain ⟨⟨aggregate, slot, ready⟩, backlog⟩ := c
  obtain ⟨hagg, hslot⟩ := h
  cases slot with
  | none =>
    obtain rfl : backlog = [] := hslot rfl
    exact ⟨⟨hagg, fun _ => rfl⟩, rfl⟩
  | some waiting =>
    cases backlog with
    | nil => exact ⟨⟨hagg, fun _ => rfl⟩, rfl⟩
    | cons next rest => exact ⟨⟨hagg, nofun⟩, rfl⟩

theorem get_pending (h : c.Inv) :
    (c.step .get).2.Inv ∧ (c.step .get).1 ++ (c.step .get).2.pending = c.pending := by
  have hnowait := getNowait_pending h
  rw [step, get]
  rcases hget : c.getNowait with ⟨_ | output, c'⟩
  · exact ⟨h, rfl⟩
  · rwa [hget] at hnowait

/-- What was put, cut into blocks: each one was returned or waits, merged into one output. If
nothing was put after a finished output, nothing follows the end of a chunk in a block. -/
structure Collected (puts returned : List RequestOutput) (c : StreamingInputOutputCollector)
    (blocks : List Block) : Prop where
  inv : c.Inv
  flat : blocks.flatMap Block.members = puts
  merged : blocks.map Block.merged = returned ++ c.pending
  indexed : ∀ b ∈ blocks, ∀ o ∈ b.members, Indexed o.outputs
  opens : (puts.Pairwise fun o _ => o.finished = false) →
    ∀ b ∈ blocks, b.members.Pairwise fun o _ => o.Open

variable {puts returned more : List RequestOutput} {blocks : List Block}

theorem Collected.put (h : Collected puts returned c blocks) {output : RequestOutput}
    (hindexed : Indexed output.outputs) :
    ∃ blocks', Collected (puts ++ [output]) returned (c.put output) blocks' := by
  obtain ⟨hinv, hpending | ⟨before, last, hlast, hboundary, hpending⟩⟩ := put_cases h.inv output
  · refine ⟨blocks ++ [⟨output, []⟩], hinv, ?_, ?_, ?_, fun hputs => ?_⟩
    · rw [flatMap_append, h.flat]
      rfl
    · rw [map_append, h.merged, hpending, append_assoc]
      rfl
    · exact forall_mem_append.mpr ⟨h.indexed,
        forall_mem_singleton.mpr (forall_mem_singleton.mpr hindexed)⟩
    · exact forall_mem_append.mpr ⟨h.opens (pairwise_append.mp hputs).1,
        forall_mem_singleton.mpr (pairwise_singleton ..)⟩
  · obtain ⟨blocks', b, rfl, hblocks, hb⟩ : ∃ blocks' b, blocks = blocks' ++ [b] ∧
        blocks'.map Block.merged = returned ++ before ∧ b.merged = last := by
      have hmerged := h.merged
      rw [hlast, ← append_assoc] at hmerged
      obtain ⟨blocks', bs, rfl, hblocks, hbs⟩ := map_eq_append_iff.mp hmerged
      obtain ⟨b, rfl, hb⟩ := map_eq_singleton_iff.mp hbs
      exact ⟨blocks', b, rfl, hblocks, hb⟩
    obtain ⟨hindexed', hlastIndexed⟩ := forall_mem_append.mp h.indexed
    have hbIndexed := hlastIndexed b mem_cons_self
    have hflat := h.flat
    rw [flatMap_append, flatMap_singleton] at hflat
    have hmembers : (Block.mk b.first (b.rest ++ [output])).members = b.members ++ [output] := rfl
    refine ⟨blocks' ++ [⟨b.first, b.rest ++ [output]⟩], hinv, ?_, ?_, ?_, fun hputs => ?_⟩
    · rw [flatMap_append, flatMap_singleton, hmembers, ← append_assoc, hflat]
    · rw [map_append, hblocks, hpending, ← hb, map_singleton, Block.merged,
        foldl_append, append_assoc]
      rfl
    · exact forall_mem_append.mpr ⟨hindexed', forall_mem_singleton.mpr
        (forall_mem_append.mpr ⟨hbIndexed, forall_mem_singleton.mpr hindexed⟩)⟩
    obtain ⟨hpairs, -, hfinished⟩ := pairwise_append.mp hputs
    obtain ⟨hopens', hlastOpens⟩ := forall_mem_append.mp (h.opens hpairs)
    have hbOpens := hlastOpens b mem_cons_self
    -- the last block holds no finished output, and its merger ends no chunk
    have hopen : b.merged.Open := by
      have hunfinished : b.merged.finished = false := by
        rw [b.merged_finished, any_eq_false]
        intro o ho
        exact ne_true_of_eq_false
          (hfinished o (hflat ▸ mem_append_right _ ho) output mem_cons_self)
      rw [← hb, isChunkBoundary, hunfinished, Bool.not_false, Bool.true_and,
        any_eq_false] at hboundary
      exact ⟨hunfinished, fun x hx => eq_false_of_ne_true (hboundary x hx)⟩
    refine forall_mem_append.mpr ⟨hopens', forall_mem_singleton.mpr ?_⟩
    refine pairwise_append.mpr ⟨hbOpens, pairwise_singleton .., ?_⟩
    exact fun o ho _ _ => Block.open_of_merged hbIndexed hbOpens hopen o ho

theorem Collected.returns (h : Collected puts returned c blocks) {got : List RequestOutput}
    {c' : StreamingInputOutputCollector} (hget : c'.Inv ∧ got ++ c'.pending = c.pending) :
    Collected puts (returned ++ got) c' blocks where
  inv := hget.1
  flat := h.flat
  merged := by rw [append_assoc, hget.2, h.merged]
  indexed := h.indexed
  opens := h.opens

theorem Collected.run (h : Collected puts returned c blocks) (ops : List Op)
    (hindexed : ∀ o ∈ Op.puts ops, Indexed o.outputs) :
    ∃ blocks', Collected (puts ++ Op.puts ops) (returned ++ (c.run ops).1) (c.run ops).2
      blocks' := by
  induction ops generalizing puts returned c blocks with
  | nil =>
    refine ⟨blocks, ?_⟩
    rw [Op.puts, append_nil]
    exact h.returns ⟨h.inv, rfl⟩
  | cons op ops ih =>
    rw [StreamingInputOutputCollector.run, ← append_assoc]
    cases op with
    | put output =>
      obtain ⟨houtput, hlater⟩ := forall_mem_cons.mp hindexed
      obtain ⟨blocks', h'⟩ := h.put houtput
      rw [Op.puts, ← singleton_append, ← append_assoc]
      exact ih (h'.returns ⟨h'.inv, rfl⟩) hlater
    | get => exact ih (h.returns (get_pending h.inv)) hindexed
    | getNowait => exact ih (h.returns (getNowait_pending h.inv)) hindexed

/-- Over every run of a collector of deltas, if the completions of an output have different
indexes: what was returned and what waits holds, for each completion index, the texts and token ids
that were put, in order, and the finished flag is kept. If no output is put after a finished one,
the same is true of the finish reasons, and each output is the merger of outputs that were put one
after another, of which at most the last ended a chunk. -/
theorem run_collects (ops : List Op)
    (hindexed : ∀ o ∈ Op.puts ops, (o.outputs.map (·.index)).Nodup) :
    let out := ((new .delta).run ops).1 ++ ((new .delta).run ops).2.pending
    (∀ i, streamed (·.text.toList) i out = streamed (·.text.toList) i (Op.puts ops) ∧
      streamed (·.tokenIds) i out = streamed (·.tokenIds) i (Op.puts ops)) ∧
    out.any (·.finished) = (Op.puts ops).any (·.finished) ∧
    (((Op.puts ops).Pairwise fun o _ => o.finished = false) →
      (∀ i, streamed reasons i out = streamed reasons i (Op.puts ops)) ∧
      ∃ blocks : List Block, blocks.flatMap Block.members = Op.puts ops ∧
        blocks.map Block.merged = out ∧
        ∀ b ∈ blocks, b.members.Pairwise fun o _ => isChunkBoundary (some o) = false) := by
  intro out
  have hnew : Collected [] [] (new .delta) [] :=
    ⟨⟨rfl, fun _ => rfl⟩, rfl, rfl, nofun, fun _ => nofun⟩
  obtain ⟨blocks, h⟩ := hnew.run ops hindexed
  have hflat : blocks.flatMap Block.members = Op.puts ops := h.flat
  have hmerged : blocks.map Block.merged = out := h.merged
  have hstreamed : ∀ {α : Type} (f : CompletionOutput → List α) (i : Nat),
      (∀ b ∈ blocks, contents f i b.merged.outputs = streamed f i b.members) →
      streamed f i out = streamed f i (Op.puts ops) := by
    intro α f i hblocks
    rw [← hmerged, ← hflat, streamed, streamed, flatMap_map, flatMap_assoc]
    exact flatMap_congr hblocks
  -- texts and token ids may be merged into any completion
  have hkept : ∀ {α : Type} (f : CompletionOutput → List α) (i : Nat),
      (∀ c d, f (mergeCompletion c d) = f c ++ f d) →
      streamed f i out = streamed f i (Op.puts ops) := by
    intro α f i hmerge
    exact hstreamed f i fun b hb => Block.contents_merged (h.indexed b hb) f i (fun _ => True)
      (pairwise_of_forall fun _ _ _ _ => trivial) (fun _ _ _ _ _ _ => trivial)
      fun c d _ => hmerge c d
  refine ⟨fun i => ⟨?_, ?_⟩, ?_, fun hputs => ⟨fun i => ?_, blocks, hflat, hmerged, ?_⟩⟩
  · exact hkept (·.text.toList) i fun c d => String.toList_append
  · exact hkept (·.tokenIds) i fun _ _ => rfl
  · rw [← hmerged, ← hflat, any_map, any_flatMap]
    exact congrArg _ (funext Block.merged_finished)
  · exact hstreamed reasons i fun b hb =>
      Block.reasons_merged (h.indexed b hb) (h.opens hputs b hb) i
  · intro b hb
    refine (h.opens hputs b hb).imp fun ho => ?_
    rw [isChunkBoundary, ho.finished, Bool.not_false, Bool.true_and, any_eq_false]
    exact fun x hx => ne_true_of_eq_false (ho.unended x hx)

def sampleOutput (index token : Nat) (finishReason : Option FinishReason) (finished : Bool) :
    RequestOutput :=
  ⟨[⟨index, "", [token], finishReason, none⟩], finished⟩

/-- Two deltas merge, a chunk ends, and the delta of the next chunk waits on its own. -/
theorem run_collects_chunks :
    let ops : List Op := [.put (sampleOutput 0 1 none false), .put (sampleOutput 0 2 none false),
      .put (sampleOutput 1 3 (some .stop) false), .put (sampleOutput 0 4 none false), .get]
    ((new .delta).run ops).1.length = 1 ∧
      streamed (·.tokenIds) 0 (((new .delta).run ops).1 ++ ((new .delta).run ops).2.pending) =
        [1, 2, 4] :=
  ⟨by decide, ((run_collects _ (by decide)).1 0).2⟩

/-- An output put after a finished one is merged into it, and its finish reason is lost. And where
an output has two completions of one index, what is put next is merged into the first of them, so
that token 3 comes before token 2. -/
theorem run_collects_after_finish :
    (let ops : List Op :=
      [.put (sampleOutput 0 1 (some .stop) true), .put (sampleOutput 0 2 none false), .get]
    streamed reasons 0 (((new .delta).run ops).1 ++ ((new .delta).run ops).2.pending) ≠
      streamed reasons 0 (Op.puts ops)) ∧
    let ops : List Op := [.put ⟨[⟨0, "", [1], none, none⟩, ⟨0, "", [2], none, none⟩], false⟩,
      .put (sampleOutput 0 3 none false), .get]
    streamed (·.tokenIds) 0 (((new .delta).run ops).1 ++ ((new .delta).run ops).2.pending) =
      [1, 3, 2] := by
  decide

end StreamingInputOutputCollector

end Vllm.Engine.Collectors
