import Vllm.Library.Walk

/-!
# Member extraction from a growing JSON text

`extract_json_member_object` (`parser/utils.py`) reads the wrapper of a tool call while it is
still written and gives the text of one member, as far as it is there. What it gives only grows
with the text, and on a well-formed object it is the text of the member and nothing else.
-/

namespace Vllm.Parser

open Library List

inductive Fault
  | valueError
  deriving DecidableEq, Repr

/-! ## The scanners -/

/-- The state that both scanners keep. -/
structure Lex where
  depth : Int := 0
  inString : Bool := false
  escape : Bool := false
  deriving DecidableEq, Repr

namespace Lex

def calm (s : Lex) : Bool := !s.escape && !s.inString

/-- How far a character outside of strings leads down; one scanner does not count brackets. -/
def weight (bracket : Int) : Char → Int
  | '{' => 1
  | '}' => -1
  | '[' => bracket
  | ']' => -bracket
  | _ => 0

def step (bracket : Int) (s : Lex) (ch : Char) : Lex :=
  if s.escape then { s with escape := false }
  else if s.inString then
    if ch = '\\' then { s with escape := true }
    else if ch = '"' then { s with inString := false }
    else s
  else if ch = '"' then { s with inString := true }
  else { s with depth := s.depth + weight bracket ch }

/-- The character is the mark, outside of strings and not nested. -/
def stops (mark : Char) (s : Lex) (ch : Char) : Bool := s.calm && ch = mark && s.depth = 1

end Lex

/-- `scan_json_object_end`, for the text from `start` on: the object ends with the brace that
takes the depth from one to zero. -/
def scanJsonObjectEnd (value : List Char) : Option Nat :=
  (readUntil (Lex.step 0) (Lex.stops '}') {} value).map fun r => value.length - r.2.length

structure MemberScan extends Lex where
  /-- `raw[:i]` -/
  read : List Char := []
  /-- `string_start + 1` -/
  stringFrom : Nat := 0
  lastString : Option (List Char) := none
  deriving DecidableEq, Repr

namespace MemberScan

def next (s : MemberScan) (ch : Char) : MemberScan where
  toLex := s.toLex.step 1 ch
  read := s.read ++ [ch]
  stringFrom := if s.calm && ch = '"' then s.read.length + 1 else s.stringFrom
  lastString :=
    if !s.escape && s.inString && ch = '"' && s.depth = 1 then some (s.read.drop s.stringFrom)
    else s.lastString

/-- The colon behind the key. -/
def atKey (key : List Char) (s : MemberScan) (ch : Char) : Bool :=
  s.toLex.stops ':' ch && s.lastString = some key

end MemberScan

def jsonWs : List Char := [' ', '\t', '\r', '\n']

/-- The object at the start of the text, as far as it is there. -/
def objectSpan (value : List Char) : List Char :=
  match scanJsonObjectEnd value with
  | none => value
  | some valueEnd => value.take valueEnd

/-- The text behind the colon of the member is `rest`. -/
def memberValue (rest : List Char) : Except Fault (Option (List Char)) :=
  let value := rest.dropWhile (· ∈ jsonWs)
  match value.head? with
  | none => .ok none
  | some ch => if ch ≠ '{' then .error .valueError else .ok (some (objectSpan value))

def extractJsonMemberObject (raw key : List Char) : Except Fault (Option (List Char)) :=
  match readUntil MemberScan.next (MemberScan.atKey key) {} raw with
  | none => .ok none
  | some (_, rest) => memberValue rest

/-! ## Growing texts -/

variable {value rest p key t b pad : List Char} (more : List Char)

theorem scanJsonObjectEnd_append {n : Nat} (h : scanJsonObjectEnd value = some n) :
    n ≤ value.length ∧ scanJsonObjectEnd (value ++ more) = some n := by
  obtain ⟨⟨s, r⟩, hread, rfl⟩ := Option.map_eq_some_iff.mp h
  refine ⟨Nat.sub_le _ _, ?_⟩
  rw [scanJsonObjectEnd, readUntil_append hread, Option.map_some, length_append, length_append,
    Nat.add_sub_add_right]

/-- An object that ends later has all of the text so far. -/
theorem le_of_scanJsonObjectEnd {n : Nat} (h : scanJsonObjectEnd value = none)
    (h' : scanJsonObjectEnd (value ++ more) = some n) : value.length ≤ n := by
  obtain ⟨s', hpass⟩ := passes_of_readUntil (Option.map_eq_none_iff.mp h)
  obtain ⟨⟨s, r⟩, hread, rfl⟩ := Option.map_eq_some_iff.mp h'
  rw [hpass.readUntil_append] at hread
  have := length_lt_of_readUntil hread
  simp only [length_append]
  omega

theorem objectSpan_append : objectSpan value <+: objectSpan (value ++ more) := by
  unfold objectSpan
  cases hend : scanJsonObjectEnd value with
  | none =>
    cases hmore : scanJsonObjectEnd (value ++ more) with
    | none => exact prefix_append value more
    | some n =>
      exact prefix_take_iff.mpr
        ⟨prefix_append value more, le_of_scanJsonObjectEnd more hend hmore⟩
  | some n =>
    obtain ⟨hle, hsame⟩ := scanJsonObjectEnd_append more hend
    simp only [hsame, take_append_of_le_length hle, prefix_rfl]

theorem memberValue_append (h : memberValue rest = .ok (some p)) :
    ∃ q, memberValue (rest ++ more) = .ok (some q) ∧ p <+: q := by
  simp only [memberValue] at h ⊢
  cases hvalue : rest.dropWhile (· ∈ jsonWs) with
  | nil =>
    rw [hvalue] at h
    cases h
  | cons ch value =>
    rw [hvalue] at h
    rw [dropWhile_append, hvalue, if_neg (by simp)]
    simp only [head?_cons, cons_append] at h ⊢
    split at h
    · cases h
    · next hch =>
      cases h
      exact ⟨_, if_neg hch, objectSpan_append more⟩

theorem extractJsonMemberObject_append {raw : List Char}
    (h : extractJsonMemberObject raw key = .ok (some p)) :
    ∃ q, extractJsonMemberObject (raw ++ more) key = .ok (some q) ∧ p <+: q := by
  unfold extractJsonMemberObject at h
  split at h
  · cases h
  · next hread =>
    rw [extractJsonMemberObject, readUntil_append hread]
    exact memberValue_append more h

/-! ## Well-formed texts -/

def Blank (t : List Char) : Prop := ∀ c ∈ t, c ∈ jsonWs

/-- What stands between the quotes of a string: a backslash takes a character with it. -/
inductive StringBody : List Char → Prop
  | nil : StringBody []
  | char {c : Char} {b : List Char} : c ≠ '"' → c ≠ '\\' → StringBody b → StringBody (c :: b)
  | escape {c : Char} {b : List Char} : StringBody b → StringBody ('\\' :: c :: b)

def structural : List Char := ['"', '{', '}', '[', ']', ':']

/-- Texts that close what they open. A JSON value is one without colons outside of its braces,
and so are the elements of an array; the members of an object are one with such colons. -/
inductive Closed : Bool → List Char → Prop
  | nil {colons : Bool} : Closed colons []
  | char {colons : Bool} {c : Char} {t : List Char} : c ∉ structural → Closed colons t →
      Closed colons (c :: t)
  | colon {t : List Char} : Closed true t → Closed true (':' :: t)
  | string {colons : Bool} {b t : List Char} : StringBody b → Closed colons t →
      Closed colons ('"' :: (b ++ '"' :: t))
  | object {colons : Bool} {s t : List Char} : Closed true s → Closed colons t →
      Closed colons ('{' :: (s ++ '}' :: t))
  | array {colons : Bool} {s t : List Char} : Closed false s → Closed colons t →
      Closed colons ('[' :: (s ++ ']' :: t))

section Passing

variable {w : Int} {mark : Char} {d : Int}

theorem weight_plain {c : Char} (hc : c ∉ structural) : Lex.weight w c = 0 := by
  unfold Lex.weight
  split <;> simp_all [structural]

/-- Inside of a string nothing stops. -/
theorem StringBody.passes (h : StringBody b) :
    Passes (Lex.step w) (Lex.stops mark) ⟨d, true, false⟩ b ⟨d, true, false⟩ := by
  induction h with
  | nil => exact .nil
  | char hquote hslash _ ih =>
    refine .cons (by simp [Lex.stops, Lex.calm]) ?_
    simpa [Lex.step, hquote, hslash] using ih
  | escape _ ih =>
    refine .cons (by simp [Lex.stops, Lex.calm])
      (.cons (by simp [Lex.stops, Lex.calm, Lex.step]) ?_)
    simpa [Lex.step] using ih

/-- A closed text leaves the scanner as deep as it was and holds no mark that is not nested. -/
theorem Closed.passes (hmark : mark = ':' ∨ mark = '}') (hw : 0 ≤ w) {colons : Bool}
    (h : Closed colons t) (hd : 1 ≤ d) (hcolon : mark = ':' → colons = true → 2 ≤ d) :
    Passes (Lex.step w) (Lex.stops mark) ⟨d, false, false⟩ t ⟨d, false, false⟩ := by
  -- no character but the mark stops, and the mark only when it is not nested
  have hpass : ∀ {ch : Char} {s : Lex}, ch ≠ mark → Lex.stops mark s ch = false := by
    intro ch s hne
    simp [Lex.stops, hne]
  induction h generalizing d with
  | nil => exact .nil
  | @char _ c _ hc _ ih =>
    have hne : c ≠ mark ∧ c ≠ '"' := by
      rcases hmark with rfl | rfl <;> simp_all [structural]
    refine .cons (hpass hne.1) ?_
    simpa [Lex.step, hne.2, weight_plain hc] using ih hd hcolon
  | colon _ ih =>
    refine .cons ?_ (by simpa [Lex.step, Lex.weight] using ih hd hcolon)
    rcases hmark with rfl | rfl
    · have := hcolon rfl rfl
      simp [Lex.stops]
      omega
    · exact hpass (by decide)
  | string hb _ ih =>
    refine .cons (hpass ?_) (hb.passes.append
      (.cons (by simp [Lex.stops, Lex.calm]) (ih hd hcolon)))
    rcases hmark with rfl | rfl <;> decide
  | object _ _ ihs iht =>
    refine .cons (hpass ?_) ((ihs (d := d + 1) (by omega) fun _ _ => by omega).append (.cons ?_ ?_))
    · rcases hmark with rfl | rfl <;> decide
    · simp [Lex.stops]
      omega
    · simpa [Lex.step, Lex.weight, Int.add_neg_cancel_right] using iht hd hcolon
  | array _ _ ihs iht =>
    refine .cons (hpass ?_) ((ihs (d := d + w) (by omega) (by simp)).append (.cons (hpass ?_) ?_))
    · rcases hmark with rfl | rfl <;> decide
    · rcases hmark with rfl | rfl <;> decide
    · simpa [Lex.step, Lex.weight, Int.add_neg_cancel_right] using iht hd hcolon

end Passing

/-! ## The span of an object -/

section Span

variable (h : Closed true t)
include h

theorem passes_open : Passes (Lex.step 0) (Lex.stops '}') {} ('{' :: t) ⟨1, false, false⟩ :=
  .cons (by simp [Lex.stops]) (h.passes (.inr rfl) (Int.le_refl 0) (Int.le_refl 1) (by decide))

theorem objectSpan_open (hvalue : value <+: '{' :: t) : objectSpan value = value := by
  obtain ⟨more, hmore⟩ := hvalue
  obtain ⟨s, hpass⟩ := (hmore ▸ passes_open h : Passes _ _ _ (value ++ more) _).of_append
  have hnone : readUntil _ _ _ (value ++ []) = none := hpass.readUntil_append
  rw [append_nil] at hnone
  rw [objectSpan, scanJsonObjectEnd, hnone]
  rfl

theorem objectSpan_closed : objectSpan ('{' :: t ++ ['}'] ++ more) = '{' :: t ++ ['}'] := by
  have hread : readUntil (Lex.step 0) (Lex.stops '}') {} ('{' :: t ++ ['}'] ++ more) =
      some (⟨1, false, false⟩, more) := by
    rw [append_assoc, (passes_open h).readUntil_append]
    rfl
  rw [objectSpan, scanJsonObjectEnd, hread, Option.map_some, length_append, Nat.add_sub_cancel]
  exact take_left

/-- On every part of the text from the object on, the span is the part of the object in it. -/
theorem objectSpan_take (n : Nat) :
    objectSpan (('{' :: t ++ ['}'] ++ more).take n) = ('{' :: t ++ ['}']).take n := by
  cases Nat.lt_or_ge ('{' :: t).length n with
  | inl hlt =>
    have hall : ('{' :: t ++ ['}']).length ≤ n := by
      rw [length_append]
      exact hlt
    rw [take_append, take_of_length_le hall]
    exact objectSpan_closed _ h
  | inr hge =>
    rw [append_assoc, take_append_of_le_length hge, take_append_of_le_length hge]
    exact objectSpan_open h <| take_prefix n _

theorem memberValue_object {n : Nat} (hpad : Blank pad) (hn : 0 < n) :
    memberValue (pad ++ ('{' :: t ++ ['}'] ++ more).take n) =
      .ok (some (('{' :: t ++ ['}']).take n)) := by
  obtain ⟨k, rfl⟩ := Nat.exists_eq_succ_of_ne_zero (Nat.ne_of_gt hn)
  have hvalue : (pad ++ ('{' :: t ++ ['}'] ++ more).take (k + 1)).dropWhile (· ∈ jsonWs) =
      ('{' :: t ++ ['}'] ++ more).take (k + 1) := by
    rw [dropWhile_append_of_pos fun c hc => decide_eq_true (hpad c hc), cons_append, cons_append,
      take_succ_cons, dropWhile_cons_of_neg (by decide)]
  simp only [memberValue, hvalue]
  rw [← objectSpan_take more h (k + 1)]
  rfl

end Span

/-! ## Up to the value -/

/-- A member with an unescaped key; its value has blanks around it. -/
structure Member where
  pad : List Char
  key : List Char
  gap : List Char
  value : List Char
  pad_blank : Blank pad
  key_plain : ∀ c ∈ key, c ≠ '"' ∧ c ≠ '\\'
  gap_blank : Blank gap
  value_closed : Closed false value

namespace Member

def head (m : Member) : List Char := m.pad ++ ('"' :: (m.key ++ '"' :: m.gap))

def text (m : Member) : List Char := m.head ++ ':' :: m.value

end Member

namespace MemberScan

variable {s : MemberScan}

theorem passes_of_lex (key : List Char) {l : Lex}
    (h : Passes (Lex.step 1) (Lex.stops ':') s.toLex t l) :
    ∃ s', s'.toLex = l ∧ Passes next (atKey key) s t s' := by
  generalize hs : s.toLex = l₀ at h
  induction h generalizing s with
  | nil => exact ⟨s, hs, .nil⟩
  | @cons _ _ ch _ hstop _ ih =>
    obtain ⟨s', hs', hpass⟩ := ih (s := s.next ch) (by rw [next, hs])
    exact ⟨s', hs', .cons (by rw [atKey, hs, hstop, Bool.false_and]) hpass⟩

/-- Characters that change nothing are only read. -/
theorem passes_kept
    (h : ∀ c ∈ t, s.toLex.stops ':' c = false ∧ s.toLex.step 1 c = s.toLex ∧ c ≠ '"') :
    Passes next (atKey key) s t { s with read := s.read ++ t } := by
  induction t generalizing s with
  | nil => simpa using Passes.nil
  | cons c t ih =>
    obtain ⟨hstop, hstep, hquote⟩ := h c mem_cons_self
    have hnext : s.next c = { s with read := s.read ++ [c] } := by simp [next, hstep, hquote]
    refine .cons (by rw [atKey, hstop, Bool.false_and]) ?_
    rw [hnext]
    simpa using ih (s := { s with read := s.read ++ [c] }) fun c hc => h c (mem_cons_of_mem _ hc)

theorem passes_blank (key : List Char) (hs : s.toLex = ⟨s.depth, false, false⟩) (ht : Blank t) :
    Passes next (atKey key) s t { s with read := s.read ++ t } := by
  have hws : ∀ c ∈ jsonWs, c ≠ ':' ∧ c ≠ '"' ∧ c ∉ structural := by simp [jsonWs, structural]
  refine passes_kept fun c hc => ?_
  obtain ⟨hcolon, hquote, hplain⟩ := hws c (ht c hc)
  rw [hs]
  exact ⟨by simp [Lex.stops, hcolon], by simp [Lex.step, hquote, weight_plain hplain], hquote⟩

/-- Behind the key of a member its text is the last string. -/
theorem passes_head (key : List Char) (m : Member) (hs : s.toLex = ⟨1, false, false⟩) :
    ∃ s', s'.toLex = ⟨1, false, false⟩ ∧ s'.lastString = some m.key ∧
      Passes next (atKey key) s m.head s' := by
  obtain ⟨_, read, stringFrom, lastString⟩ := s
  cases hs
  let opened : MemberScan :=
    ⟨⟨1, true, false⟩, read ++ m.pad ++ ['"'], (read ++ m.pad).length + 1, lastString⟩
  let closed : MemberScan := next { opened with read := opened.read ++ m.key } '"'
  have hlast : closed.lastString = some m.key := congrArg some (drop_left' length_append)
  have hopen : next ⟨⟨1, false, false⟩, read ++ m.pad, stringFrom, lastString⟩ '"' = opened := by
    simp [opened, next, Lex.step, Lex.calm]
  have hkey : Passes next (atKey key) opened m.key { opened with read := opened.read ++ m.key } :=
    passes_kept fun c hc => by simp [opened, Lex.stops, Lex.calm, Lex.step, m.key_plain c hc]
  have hquote : Passes next (atKey key) opened (m.key ++ '"' :: m.gap) _ :=
    hkey.append (.cons (by simp [atKey, Lex.stops]) (passes_blank key rfl m.gap_blank))
  exact ⟨{ closed with read := closed.read ++ m.gap }, rfl, hlast,
    (passes_blank key rfl m.pad_blank).append (.cons (by simp [atKey, Lex.stops]) (hopen ▸ hquote))⟩

/-- A member with another key is passed, with the comma behind it. -/
theorem passes_member (m : Member) (hkey : m.key ≠ key) (hs : s.toLex = ⟨1, false, false⟩) :
    ∃ s', s'.toLex = ⟨1, false, false⟩ ∧ Passes next (atKey key) s (m.text ++ [',']) s' := by
  obtain ⟨s₁, hs₁, hlast, hhead⟩ := passes_head key m hs
  have hcolon : (s₁.next ':').toLex = ⟨1, false, false⟩ := by
    simp [next, hs₁, Lex.step, Lex.weight]
  have hvalue : Passes (Lex.step 1) (Lex.stops ':') ⟨1, false, false⟩ m.value _ :=
    m.value_closed.passes (.inl rfl) (by decide) (by decide) (by simp)
  obtain ⟨s₂, hs₂, hrest⟩ := passes_of_lex key (hcolon ▸ hvalue)
  refine ⟨s₂.next ',', by simp [next, hs₂.trans hcolon, Lex.step, Lex.weight], ?_⟩
  exact (hhead.append (.cons (by simp [atKey, hlast, hkey]) hrest)).append
    (.single (by simp [atKey, Lex.stops]))

theorem passes_members {ms : List Member} (hkeys : ∀ m ∈ ms, m.key ≠ key)
    (hs : s.toLex = ⟨1, false, false⟩) :
    ∃ s', s'.toLex = ⟨1, false, false⟩ ∧
      Passes next (atKey key) s (ms.flatMap fun m => m.text ++ [',']) s' := by
  induction ms generalizing s with
  | nil => exact ⟨s, hs, .nil⟩
  | cons m ms ih =>
    obtain ⟨s₁, hs₁, hm⟩ := passes_member m (hkeys m mem_cons_self) hs
    obtain ⟨s₂, hs₂, hms⟩ := ih (fun m hm => hkeys m (mem_cons_of_mem _ hm)) hs₁
    exact ⟨s₂, hs₂, hm.append hms⟩

end MemberScan

/-- An object with distinct keys; the value of one member is an object. -/
structure Wrapper where
  lead : List Char
  before : List Member
  member : Member
  pad : List Char
  body : List Char
  pad' : List Char
  after : List Member
  trail : List Char
  lead_blank : Blank lead
  keys_nodup : ((before ++ member :: after).map Member.key).Nodup
  value_eq : member.value = pad ++ ('{' :: body ++ ['}'] ++ pad')
  pad_blank : Blank pad
  body_closed : Closed true body

namespace Wrapper

variable (o : Wrapper)

/-- The text of the object that is the value of the member. -/
def object : List Char := '{' :: o.body ++ ['}']

/-- The text in front of it. -/
def front : List Char :=
  o.lead ++ '{' :: ((o.before.flatMap fun m => m.text ++ [',']) ++ o.member.head) ++ ':' :: o.pad

def text : List Char :=
  o.front ++ (o.object ++ (o.pad' ++ (o.after.flatMap fun m => ',' :: m.text) ++ '}' :: o.trail))

theorem extract_front : extractJsonMemberObject (o.front ++ rest) o.member.key =
    memberValue (o.pad ++ rest) := by
  have hbefore : ∀ b ∈ o.before, b.key ≠ o.member.key := by
    have hkeys := o.keys_nodup
    rw [map_append, nodup_append] at hkeys
    exact fun b hb => hkeys.2.2 _ (mem_map_of_mem hb) _ mem_cons_self
  have hlead := MemberScan.passes_blank o.member.key (s := {}) rfl o.lead_blank
  obtain ⟨s₁, hs₁, hmembers⟩ := MemberScan.passes_members hbefore
    (s := MemberScan.next { read := o.lead } '{') rfl
  obtain ⟨s₂, hs₂, hlast, hhead⟩ := MemberScan.passes_head o.member.key o.member hs₁
  have hpass := hlead.append (.cons (by simp [MemberScan.atKey, Lex.stops]) (hmembers.append hhead))
  have hstop : MemberScan.atKey o.member.key s₂ ':' = true := by
    simp [MemberScan.atKey, hs₂, hlast, Lex.stops, Lex.calm]
  rw [extractJsonMemberObject, front, append_assoc, hpass.readUntil_append, cons_append, readUntil,
    if_pos hstop]

theorem extract_take {n : Nat} (hn : o.front.length < n) :
    extractJsonMemberObject (o.text.take n) o.member.key =
      .ok (some (o.object.take (n - o.front.length))) := by
  rw [text, take_append, take_of_length_le (Nat.le_of_lt hn), extract_front]
  exact memberValue_object _ o.body_closed o.pad_blank (Nat.sub_pos_of_lt hn)

end Wrapper

/-- What is extracted only grows with the text. On a well-formed object it is the object that the
member has, and on a part of the text what is there of that object. -/
theorem extractJsonMemberObject_spec :
    (∀ raw key more p, extractJsonMemberObject raw key = .ok (some p) →
      ∃ q, extractJsonMemberObject (raw ++ more) key = .ok (some q) ∧ p <+: q) ∧
    ∀ o : Wrapper, extractJsonMemberObject o.text o.member.key = .ok (some o.object) ∧
      ∀ n, o.front.length < n → extractJsonMemberObject (o.text.take n) o.member.key =
        .ok (some (o.object.take (n - o.front.length))) := by
  refine ⟨fun _ _ more _ => extractJsonMemberObject_append more, fun o =>
    ⟨?_, fun n => o.extract_take⟩⟩
  have hlength : o.front.length + o.object.length ≤ o.text.length := by
    rw [Wrapper.text, length_append, length_append]
    omega
  have hobject : 0 < o.object.length := Nat.succ_pos _
  have hwhole := o.extract_take (n := o.text.length) (by omega)
  rwa [take_length, take_of_length_le (by omega)] at hwhole

/-- One member, with a string and a brace inside of its object. -/
def sampleWrapper : Wrapper where
  lead := []
  before := []
  member := ⟨[], ['a'], [], "\x7b\"\x7d\":0\x7d".toList, by simp [Blank], by simp, by simp [Blank],
    .object (s := "\"\x7d\":0".toList) (.string (b := ['}']) (.char (by decide) (by decide) .nil)
      (.colon (.char (by decide) .nil))) .nil⟩
  pad := []
  body := "\"\x7d\":0".toList
  pad' := []
  after := []
  trail := []
  lead_blank := by simp [Blank]
  keys_nodup := by simp
  value_eq := rfl
  pad_blank := by simp [Blank]
  body_closed := .string (b := ['}']) (.char (by decide) (by decide) .nil)
    (.colon (.char (by decide) .nil))

theorem extractJsonMemberObject_sample :
    extractJsonMemberObject "\x7b\"a\":\x7b\"\x7d\":0\x7d\x7d".toList ['a'] =
      .ok (some "\x7b\"\x7d\":0\x7d".toList) :=
  (extractJsonMemberObject_spec.2 sampleWrapper).1

end Vllm.Parser
