import Downlink.Throttle

/-!
# What a throttle makes of a stream

A source is asked one question after another, and each time it answers with an item, or that it
waits, or that it has ended. A poll of a throttle asks until there is no item for an answer, and so
it takes a burst (`Throttle.drain`).

What such a poll answers is told by the questions and the polls until then, without a throttle
(`Throttle.Turn.Lawful`): an item that it gives is the newest of the source, it was not given
before, and a period has passed since the one before it. Nothing is held back for longer, and
nothing is lost when the source ends. A throttle that is polled at times in their order gives such
answers only (`Throttle.turns_lawful`).
-/

namespace Downlink

namespace Poll

variable {α : Type}

def item? : Poll α → Option α
  | .item a => some a
  | _ => none

@[simp] theorem item?_item (a : α) : (item a).item? = some a := rfl

@[simp] theorem item?_waiting : (waiting : Poll α).item? = none := rfl

@[simp] theorem item?_ended : (ended : Poll α).item? = none := rfl

end Poll

namespace Throttle

variable {α : Type}

/-! ## Questions to a source -/

/-- Asks a source that has the given answers until it waits or ends, and counts the questions. When
it has no answer left, a source waits. -/
def drain : List (Poll α) → Burst α × Nat
  | [] => (.none, 1)
  | .waiting :: _ => (.none, 1)
  | .ended :: _ => (⟨[], true⟩, 1)
  | .item a :: rest =>
    let (b, count) := drain rest
    (b.cons a, count + 1)

/-- Goes on asking behind the questions that were asked. -/
def ask (script : List (Poll α)) (asked : Nat) : Burst α × Nat :=
  let (b, count) := drain (script.drop asked)
  (b, asked + count)

/-- The items among the answers from one question on and up to another. -/
def came (script : List (Poll α)) (start stop : Nat) : List α :=
  ((script.drop start).take (stop - start)).filterMap Poll.item?

section Questions

variable {script : List (Poll α)} {t : Throttle α} {asked : Nat}

theorem drain_pos (source : List (Poll α)) : 1 ≤ (drain source).2 := by
  rcases source with _ | ⟨_ | _ | _, rest⟩
  all_goals exact Nat.succ_pos _

theorem items_drain (source : List (Poll α)) :
    (source.take (drain source).2).filterMap Poll.item? = (drain source).1.items := by
  induction source with
  | nil => rfl
  | cons answer rest ih =>
    cases answer with
    | item a => simp [drain, Burst.cons, ih]
    | waiting => rfl
    | ended => rfl

theorem ended_mem_take_drain (source : List (Poll α)) :
    .ended ∈ source.take (drain source).2 ↔ (drain source).1.ended = true := by
  induction source with
  | nil => simp [drain, Burst.none]
  | cons answer rest ih =>
    cases answer with
    | item a => simp [drain, Burst.cons, ih]
    | waiting => simp [drain, Burst.none]
    | ended => simp [drain]

theorem getElem?_drain_ne (source : List (Poll α)) (a : α) :
    source[(drain source).2 - 1]? ≠ some (.item a) := by
  induction source with
  | nil => simp
  | cons answer rest ih =>
    cases answer with
    | item b =>
      have hpos := drain_pos rest
      obtain ⟨n, hn⟩ : ∃ n, (drain rest).2 = n + 1 := ⟨(drain rest).2 - 1, by omega⟩
      simpa [drain, hn] using ih
    | waiting => simp [drain]
    | ended => simp [drain]

theorem came_append (script : List (Poll α)) {start mid stop : Nat} (hstart : start ≤ mid)
    (hstop : mid ≤ stop) :
    came script start stop = came script start mid ++ came script mid stop := by
  have hcount : stop - start = (mid - start) + (stop - mid) := by omega
  rw [came, came, came, hcount, List.take_add, List.drop_drop, List.filterMap_append,
    Nat.add_sub_cancel' hstart]

theorem came_self (script : List (Poll α)) (asked : Nat) : came script asked asked = [] := by
  rw [came, Nat.sub_self, List.take_zero, List.filterMap_nil]

theorem came_ask (script : List (Poll α)) (asked : Nat) :
    came script asked (ask script asked).2 = (ask script asked).1.items := by
  show ((script.drop asked).take (asked + (drain (script.drop asked)).2 - asked)).filterMap
    Poll.item? = _
  rw [Nat.add_sub_cancel_left, items_drain]
  rfl

theorem ended_mem_take_ask (h : .ended ∉ script.take asked) :
    .ended ∈ script.take (ask script asked).2 ↔ (ask script asked).1.ended = true := by
  show .ended ∈ script.take (asked + (drain (script.drop asked)).2) ↔ _
  rw [List.take_add, List.mem_append, ended_mem_take_drain, or_iff_right h]
  rfl

theorem getElem?_ask_ne (script : List (Poll α)) (asked : Nat) (a : α) :
    script[(ask script asked).2 - 1]? ≠ some (.item a) := by
  have hpos := drain_pos (script.drop asked)
  have hlast := getElem?_drain_ne (script.drop asked) a
  rw [List.getElem?_drop] at hlast
  show script[asked + (drain (script.drop asked)).2 - 1]? ≠ _
  rwa [Nat.add_sub_assoc hpos]

end Questions

/-! ## What a poll answers -/

/-- A poll that was made. -/
structure Turn (α : Type) where
  time : Nat
  answer : Poll α
  /-- What the throttle holds behind it. -/
  left : Option α
  /-- How many questions were put to the source until then. -/
  asked : Nat
deriving DecidableEq, Repr

/-- Polls at each of some times. -/
def turns (script : List (Poll α)) (t : Throttle α) (asked : Nat) : List Nat → List (Turn α)
  | [] => []
  | now :: rest =>
    let (answer, t, asked) := t.poll (ask script) asked now
    ⟨now, answer, t.held, asked⟩ :: turns script t asked rest

namespace Turn

def gives (turn : Turn α) : Bool := turn.answer.item?.isSome

/-- The last poll that gave an item. -/
def lastGiving? (before : List (Turn α)) : Option (Turn α) :=
  (before.filter gives).getLast?

/-- The newest item that came since the last poll that gave one. -/
def toGive? (script : List (Poll α)) (before : List (Turn α)) (asked : Nat) : Option α :=
  (came script ((lastGiving? before).elim 0 Turn.asked) asked).getLast?

/-- A source was asked until it waited or ended, and again by each poll unless it had ended. -/
structure Drains (script : List (Poll α)) (before : List (Turn α)) (asked : Nat) : Prop where
  last : ∀ a, script[asked - 1]? ≠ some (.item a)
  more : ∀ e ∈ before, .ended ∉ script.take e.asked → e.asked < asked

/-- **The law of throttled streams**: what becomes of a poll behind others. -/
structure Lawful (period : Nat) (script : List (Poll α)) (before : List (Turn α))
    (turn : Turn α) : Prop where
  drains : Drains script before turn.asked
  /-- An item that is given is the newest of the source. -/
  newest : ∀ a, turn.answer = .item a → (came script 0 turn.asked).getLast? = some a
  /-- It comes behind those that were given before. -/
  once : turn.gives = true → ∀ e ∈ before, e.gives = true →
    (came script 0 e.asked).length < (came script 0 turn.asked).length
  spaced : turn.gives = true → ∀ e ∈ before, e.gives = true → e.time + period ≤ turn.time
  /-- When nothing was given for a period, what there is to give is given. -/
  prompt : (∀ e, lastGiving? before = some e → e.time + period ≤ turn.time) →
    ∀ a, toGive? script before turn.asked = some a → turn.answer = .item a
  left : turn.left = if turn.gives then none else toGive? script before turn.asked
  /-- What is held back was held back for less than a period. -/
  patient : turn.answer = .waiting → turn.left ≠ none →
    ∃ e, lastGiving? before = some e ∧ turn.time < e.time + period
  /-- A stream ends when the source has ended and there is nothing to give. -/
  ended : turn.answer = .ended ↔
    .ended ∈ script.take turn.asked ∧ toGive? script before turn.asked = none
  /-- The last item of the source is then the last that was given. -/
  complete : turn.answer = .ended →
    ((lastGiving? before).bind fun e => e.answer.item?) = (came script 0 turn.asked).getLast?
  /-- A source that has ended is not asked. -/
  silent : ∀ e ∈ before, .ended ∈ script.take e.asked → turn.asked = e.asked
  /-- A stream that has ended goes on so. -/
  stays : ∀ e ∈ before, e.answer = .ended → turn.answer = .ended ∧ turn.asked = e.asked

end Turn

/-! ## A throttle and what it has given -/

section Gate

variable {t : Throttle α} {now : Nat} {a : α}

theorem give_of_isOpen (hheld : t.held = some a) (hopen : t.isOpen now = true) :
    t.give now = (.item a, { t with held := none, opensAt := some (now + t.period) }) := by
  simp [give, hopen, hheld]

theorem give_of_not_isOpen (hheld : t.held = some a) (hopen : t.isOpen now = false) :
    t.give now = (.waiting, t) := by
  obtain ⟨opensAt, hopensAt⟩ : ∃ opensAt, t.opensAt = some opensAt := by
    cases hopensAt : t.opensAt with
    | none => simp [isOpen, hopensAt] at hopen
    | some opensAt => exact ⟨opensAt, rfl⟩
  simp [give, hopen, hheld, hopensAt]

theorem give_of_held_eq_none (hheld : t.held = none) :
    t.give now = (if t.sourceEnded then .ended else .waiting,
      if t.isOpen now then { t with opensAt := none } else t) := by
  cases hopen : t.isOpen now <;> cases hopensAt : t.opensAt <;> simp [give, hopen, hheld, hopensAt]

end Gate

open Turn

/-- A throttle that keeps what has to be known of the polls before, none of which was later. -/
structure Keeps (period : Nat) (script : List (Poll α)) (before : List (Turn α)) (t : Throttle α)
    (asked now : Nat) : Prop where
  same : t.period = period
  held : t.held = toGive? script before asked
  sourceEnded : t.sourceEnded = true ↔ .ended ∈ script.take asked
  /-- The gate is closed for a period behind the last poll that gave an item. -/
  gate : ∀ e, lastGiving? before = some e →
    t.opensAt = some (e.time + period) ∨ t.opensAt = none ∧ e.time + period ≤ now
  atFirst : lastGiving? before = none → t.opensAt = none
  /-- The poll that gave an item last comes behind those that gave one. -/
  last : ∀ e, lastGiving? before = some e →
    e.answer.item? = (came script 0 e.asked).getLast? ∧
      ∀ d ∈ before, d.gives = true → d.time ≤ e.time ∧ d.asked ≤ e.asked
  past : ∀ e ∈ before, e.time ≤ now ∧ e.asked ≤ asked
  drained : t.sourceEnded = true → ∀ a, script[asked - 1]? ≠ some (.item a)
  silent : ∀ e ∈ before, .ended ∈ script.take e.asked → asked = e.asked
  stays : ∀ e ∈ before, e.answer = .ended →
    t.held = none ∧ t.sourceEnded = true ∧ asked = e.asked

section Keeping

variable {period asked now : Nat} {script : List (Poll α)} {before : List (Turn α)}
  {t : Throttle α} {turn : Turn α} {a : α}

theorem keeps_new (period : Nat) (script : List (Poll α)) (now : Nat) :
    Keeps period script [] (new period) 0 now where
  same := rfl
  held := rfl
  sourceEnded := by simp [new]
  gate := by simp [lastGiving?]
  atFirst := fun _ => rfl
  last := by simp [lastGiving?]
  past := by simp
  drained := by simp [new]
  silent := by simp
  stays := by simp

theorem lastGiving_concat_of_gives (h : turn.gives = true) :
    lastGiving? (before ++ [turn]) = some turn := by
  rw [lastGiving?, List.filter_append, List.filter_cons_of_pos h]
  exact List.getLast?_concat

theorem lastGiving_concat_of_not_gives (h : turn.gives = false) :
    lastGiving? (before ++ [turn]) = lastGiving? before := by
  rw [lastGiving?, List.filter_append, List.filter_cons_of_neg (by simp [h]), List.filter_nil,
    List.append_nil]
  rfl

theorem mem_of_lastGiving {e : Turn α} (h : lastGiving? before = some e) :
    e ∈ before ∧ e.gives = true :=
  List.mem_filter.1 (List.mem_of_getLast? h)

theorem exists_lastGiving {e : Turn α} (he : e ∈ before) (hgives : e.gives = true) :
    ∃ d, lastGiving? before = some d := by
  cases hlast : lastGiving? before with
  | none =>
    rw [lastGiving?, List.getLast?_eq_none_iff] at hlast
    exact absurd (List.mem_filter.2 ⟨he, hgives⟩) (by simp [hlast])
  | some d => exact ⟨d, rfl⟩

namespace Keeps

theorem lastAsked_le (h : Keeps period script before t asked now) :
    (lastGiving? before).elim 0 Turn.asked ≤ asked := by
  cases hlast : lastGiving? before with
  | none => exact Nat.zero_le _
  | some e => exact (h.past e (mem_of_lastGiving hlast).1).2

theorem ask (h : Keeps period script before t asked now) (hsource : t.sourceEnded = false) :
    Keeps period script before (t.take (ask script asked).1) (Throttle.ask script asked).2 now := by
  have hle : asked ≤ (Throttle.ask script asked).2 := Nat.le_add_right _ _
  have hgoing : .ended ∉ script.take asked := by
    rw [← h.sourceEnded, hsource]
    exact Bool.false_ne_true
  have hcame := came_append script h.lastAsked_le hle
  refine ⟨h.same, ?_, (ended_mem_take_ask hgoing).symm, h.gate, h.atFirst, h.last,
    fun e he => ⟨(h.past e he).1, Nat.le_trans (h.past e he).2 hle⟩,
    fun _ => getElem?_ask_ne script asked, ?_, ?_⟩
  · rw [toGive?, hcame, came_ask, List.getLast?_append, take, h.held]
    rfl
  · intro e he hended
    obtain rfl := h.silent e he hended
    exact absurd hended hgoing
  · intro e he hended
    rw [(h.stays e he hended).2.1] at hsource
    cases hsource

/-! ### What an open gate and a held item tell -/

theorem elapsed (h : Keeps period script before t asked now) (hopen : t.isOpen now = true) :
    ∀ e, lastGiving? before = some e → e.time + period ≤ now := by
  intro e hlast
  rcases h.gate e hlast with hopensAt | ⟨-, hpast⟩
  · simpa [isOpen, hopensAt] using hopen
  · exact hpast

theorem closed (h : Keeps period script before t asked now) (hclosed : t.isOpen now = false) :
    ∃ e, lastGiving? before = some e ∧ now < e.time + period := by
  cases hlast : lastGiving? before with
  | none =>
    rw [isOpen, h.atFirst hlast] at hclosed
    cases hclosed
  | some e =>
    refine ⟨e, rfl, ?_⟩
    rcases h.gate e hlast with hopensAt | ⟨hopensAt, -⟩
    · simpa [isOpen, hopensAt] using hclosed
    · rw [isOpen, hopensAt] at hclosed
      cases hclosed

theorem drains_of_sourceEnded (h : Keeps period script before t asked now)
    (hsource : t.sourceEnded = true) : Drains script before asked where
  last := h.drained hsource
  more := by
    intro e he hgoing
    refine Nat.lt_of_le_of_ne (h.past e he).2 fun hsame => hgoing ?_
    rw [hsame]
    exact h.sourceEnded.1 hsource

theorem drains_ask (h : Keeps period script before t asked now) :
    Drains script before (Throttle.ask script asked).2 where
  last := getElem?_ask_ne script asked
  more := fun e he _ =>
    Nat.lt_of_le_of_lt (h.past e he).2 (Nat.lt_add_of_pos_right (drain_pos (script.drop asked)))

theorem came_eq (h : Keeps period script before t asked now) :
    came script 0 asked = came script 0 ((lastGiving? before).elim 0 Turn.asked) ++
      came script ((lastGiving? before).elim 0 Turn.asked) asked :=
  came_append script (Nat.zero_le _) h.lastAsked_le

theorem newest (h : Keeps period script before t asked now) (hheld : t.held = some a) :
    (came script 0 asked).getLast? = some a := by
  rw [h.held, toGive?] at hheld
  rw [h.came_eq, List.getLast?_append, hheld]
  rfl

theorem once (h : Keeps period script before t asked now) (hheld : t.held = some a) :
    ∀ e ∈ before, e.gives = true →
      (came script 0 e.asked).length < (came script 0 asked).length := by
  intro e he hgives
  rw [h.held, toGive?] at hheld
  have hnew := List.length_pos_of_mem (List.mem_of_getLast? hheld)
  have hcame := congrArg List.length h.came_eq
  rw [List.length_append] at hcame
  obtain ⟨d, hlast⟩ := exists_lastGiving he hgives
  have hle := ((h.last d hlast).2 e he hgives).2
  have hmore := congrArg List.length (came_append script (Nat.zero_le _) hle)
  rw [List.length_append] at hmore
  rw [hlast] at hcame hnew
  simp only [Option.elim_some] at hcame hnew
  omega

theorem complete (h : Keeps period script before t asked now) (hheld : t.held = none) :
    ((lastGiving? before).bind fun e => e.answer.item?) = (came script 0 asked).getLast? := by
  rw [h.held, toGive?, List.getLast?_eq_none_iff] at hheld
  rw [h.came_eq, hheld, List.append_nil]
  cases hlast : lastGiving? before with
  | none => simp [came_self]
  | some e => exact (h.last e hlast).1

theorem not_ended (h : Keeps period script before t asked now)
    (hgoing : t.held ≠ none ∨ t.sourceEnded = false) : ∀ e ∈ before, e.answer ≠ .ended := by
  intro e he hended
  obtain ⟨hheld, hsource, -⟩ := h.stays e he hended
  rcases hgoing with hgoing | hgoing
  · exact hgoing hheld
  · rw [hsource] at hgoing
    cases hgoing

/-! ### The answers -/

theorem lawful_item (h : Keeps period script before t asked now)
    (hdrains : Drains script before asked) (hheld : t.held = some a) (hopen : t.isOpen now = true) :
    Lawful period script before ⟨now, .item a, none, asked⟩ where
  drains := hdrains
  newest := by
    intro b hb
    cases hb
    exact h.newest hheld
  once := fun _ => h.once hheld
  spaced := by
    intro _ e he hgives
    obtain ⟨d, hlast⟩ := exists_lastGiving he hgives
    have hopen := h.elapsed hopen d hlast
    have hle := ((h.last d hlast).2 e he hgives).1
    show e.time + period ≤ now
    omega
  prompt := by
    intro _ b hb
    have hsame : some b = some a := hb.symm.trans (h.held.symm.trans hheld)
    cases hsame
    rfl
  left := rfl
  patient := fun hwaiting => by cases hwaiting
  ended := by simp [← h.held, hheld]
  complete := fun hended => by cases hended
  silent := h.silent
  stays := fun e he hended => absurd hended (h.not_ended (.inl (by simp [hheld])) e he)

/-- Giving nothing. Only a closed gate makes a throttle hold something back, and only when it holds
nothing it ends with its source. -/
theorem lawful_nothing (h : Keeps period script before t asked now)
    (hdrains : Drains script before asked) {answer : Poll α} (hnothing : answer.item? = none)
    (hclosed : t.held ≠ none → t.isOpen now = false)
    (hends : answer = .ended ↔ t.sourceEnded = true ∧ t.held = none) :
    Lawful period script before ⟨now, answer, t.held, asked⟩ := by
  have hgives : gives ⟨now, answer, t.held, asked⟩ = false := by
    simp [gives, hnothing]
  refine ⟨hdrains, ?_, ?_, ?_, ?_, ?_, fun _ hleft => h.closed (hclosed hleft), ?_, ?_, h.silent,
    ?_⟩
  · intro b hb
    obtain rfl : answer = .item b := hb
    cases hnothing
  · intro hgave
    rw [hgives] at hgave
    cases hgave
  · intro hgave
    rw [hgives] at hgave
    cases hgave
  · intro hopen b hb
    have hheld : t.held ≠ none := by
      rw [h.held, hb]
      exact Option.some_ne_none b
    obtain ⟨e, hlast, hlt⟩ := h.closed (hclosed hheld)
    exact absurd (hopen e hlast) (Nat.not_le.2 hlt)
  · rw [hgives]
    exact h.held
  · rw [← h.sourceEnded, ← h.held]
    exact hends
  · exact fun hended => h.complete (hends.1 hended).2
  · intro e he hended
    obtain ⟨hheld, hsource, hasked⟩ := h.stays e he hended
    exact ⟨hends.2 ⟨hsource, hheld⟩, hasked⟩

/-! ### What is known behind them -/

theorem gave (h : Keeps period script before t asked now) (hheld : t.held = some a) :
    Keeps period script (before ++ [⟨now, .item a, none, asked⟩])
      { t with held := none, opensAt := some (now + t.period) } asked now := by
  have hlast : lastGiving? (before ++ [⟨now, .item a, none, asked⟩]) =
      some ⟨now, .item a, none, asked⟩ := lastGiving_concat_of_gives rfl
  have hpast : ∀ e ∈ before ++ [⟨now, .item a, none, asked⟩], e.time ≤ now ∧ e.asked ≤ asked :=
    List.forall_mem_append.2 ⟨h.past, by simp⟩
  refine ⟨h.same, ?_, h.sourceEnded, ?_, ?_, ?_, hpast, h.drained, ?_, ?_⟩
  · rw [toGive?, hlast]
    exact (congrArg List.getLast? (came_self script asked)).symm
  · intro e he
    rw [hlast] at he
    cases he
    exact .inl (congrArg (fun n => some (now + n)) h.same)
  · intro hnone
    rw [hlast] at hnone
    cases hnone
  · intro e he
    rw [hlast] at he
    cases he
    exact ⟨(h.newest hheld).symm, fun d hd _ => hpast d hd⟩
  · exact List.forall_mem_append.2 ⟨h.silent, by simp⟩
  · intro e he hended
    rcases List.mem_append.1 he with he | he
    · exact absurd hended (h.not_ended (.inl (by simp [hheld])) e he)
    · rw [List.mem_singleton.1 he] at hended
      cases hended

theorem passed (h : Keeps period script before t asked now) (htime : turn.time = now)
    (hasked : turn.asked = asked) (hgives : turn.gives = false)
    (hended : turn.answer = .ended → t.held = none ∧ t.sourceEnded = true) :
    Keeps period script (before ++ [turn]) t asked now := by
  have hlast : lastGiving? (before ++ [turn]) = lastGiving? before :=
    lastGiving_concat_of_not_gives hgives
  have hpast : ∀ e ∈ before ++ [turn], e.time ≤ now ∧ e.asked ≤ asked :=
    List.forall_mem_append.2 ⟨h.past, by simp [htime, hasked]⟩
  refine ⟨h.same, ?_, h.sourceEnded, ?_, ?_, ?_, hpast, h.drained, ?_, ?_⟩
  · rw [toGive?, hlast]
    exact h.held
  · rw [hlast]
    exact h.gate
  · rw [hlast]
    exact h.atFirst
  · rw [hlast]
    intro e he
    refine ⟨(h.last e he).1, List.forall_mem_append.2 ⟨(h.last e he).2, ?_⟩⟩
    simp [hgives]
  · exact List.forall_mem_append.2 ⟨h.silent, by simp [hasked]⟩
  · refine List.forall_mem_append.2 ⟨h.stays, List.forall_mem_singleton.2 fun h => ?_⟩
    exact ⟨(hended h).1, (hended h).2, hasked.symm⟩

theorem opened (h : Keeps period script before t asked now) (hopen : t.isOpen now = true) :
    Keeps period script before { t with opensAt := none } asked now :=
  ⟨h.same, h.held, h.sourceEnded, fun e he => .inr ⟨rfl, h.elapsed hopen e he⟩, fun _ => rfl,
    h.last, h.past, h.drained, h.silent, h.stays⟩

theorem later (h : Keeps period script before t asked now) {next : Nat} (hle : now ≤ next) :
    Keeps period script before t asked next := by
  refine ⟨h.same, h.held, h.sourceEnded, fun e he => ?_, h.atFirst, h.last, fun e he => ?_,
    h.drained, h.silent, h.stays⟩
  · exact (h.gate e he).imp_right fun hpast => ⟨hpast.1, Nat.le_trans hpast.2 hle⟩
  · exact ⟨Nat.le_trans (h.past e he).1 hle, (h.past e he).2⟩

/-! ### One poll after another -/

theorem answered (h : Keeps period script before t asked now)
    (hdrains : Drains script before asked) :
    Lawful period script before ⟨now, (t.give now).1, (t.give now).2.held, asked⟩ ∧
      Keeps period script (before ++ [⟨now, (t.give now).1, (t.give now).2.held, asked⟩])
        (t.give now).2 asked now := by
  cases hheld : t.held with
  | some a =>
    cases hopen : t.isOpen now with
    | true =>
      rw [give_of_isOpen hheld hopen]
      exact ⟨h.lawful_item hdrains hheld hopen, h.gave hheld⟩
    | false =>
      rw [give_of_not_isOpen hheld hopen]
      refine ⟨?_, h.passed rfl rfl rfl fun hended => by cases hended⟩
      exact h.lawful_nothing hdrains rfl (fun _ => hopen) (by simp [hheld])
  | none =>
    obtain ⟨u, hu, hkept, hleft, hsame⟩ : ∃ u,
        (if t.isOpen now then { t with opensAt := none } else t) = u ∧
          Keeps period script before u asked now ∧ u.held = t.held ∧
          u.sourceEnded = t.sourceEnded := by
      cases hopen : t.isOpen now with
      | true => exact ⟨_, rfl, h.opened hopen, rfl, rfl⟩
      | false => exact ⟨_, rfl, h, rfl, rfl⟩
    have hempty : t.held ≠ none → t.isOpen now = false := fun hheld' => absurd hheld hheld'
    rw [give_of_held_eq_none hheld, hu]
    simp only [hleft]
    cases hsource : t.sourceEnded with
    | false =>
      refine ⟨h.lawful_nothing hdrains rfl hempty (by simp [hsource]), ?_⟩
      exact hkept.passed rfl rfl rfl fun hended => by cases hended
    | true =>
      refine ⟨h.lawful_nothing hdrains rfl hempty (by simp [hsource, hheld]), ?_⟩
      exact hkept.passed rfl rfl rfl fun _ => ⟨hleft.trans hheld, hsame.trans hsource⟩

/-- **A poll keeps to the law.** -/
theorem poll (h : Keeps period script before t asked now) :
    let (answer, u, asked) := t.poll (Throttle.ask script) asked now
    Lawful period script before ⟨now, answer, u.held, asked⟩ ∧
      Keeps period script (before ++ [⟨now, answer, u.held, asked⟩]) u asked now := by
  unfold Throttle.poll
  cases hsource : t.sourceEnded with
  | true => exact h.answered (h.drains_of_sourceEnded hsource)
  | false => exact (h.ask hsource).answered h.drains_ask

end Keeps

/-- **Polls at times in their order keep to the law**, each in the light of those before it. -/
theorem lawful_of_keeps {times : List Nat} (h : Keeps period script before t asked now)
    (htimes : (now :: times).Pairwise (· ≤ ·)) {between after : List (Turn α)}
    (hturns : turns script t asked times = between ++ turn :: after) :
    turn.Lawful period script (before ++ between) := by
  induction times generalizing before t asked now between with
  | nil =>
    rw [turns] at hturns
    cases between <;> cases hturns
  | cons next rest ih =>
    obtain ⟨hle, hrest⟩ := List.pairwise_cons.1 htimes
    obtain ⟨hlawful, hkeeps⟩ := (h.later (hle next List.mem_cons_self)).poll
    rw [turns] at hturns
    cases between with
    | nil =>
      obtain ⟨rfl, -⟩ := List.cons.inj hturns
      rw [List.append_nil]
      exact hlawful
    | cons first others =>
      obtain ⟨rfl, hothers⟩ := List.cons.inj hturns
      have hturn := ih hkeeps hrest hothers
      rw [List.append_assoc] at hturn
      exact hturn

end Keeping

theorem map_time_turns (script : List (Poll α)) (t : Throttle α) (asked : Nat) (times : List Nat) :
    (turns script t asked times).map Turn.time = times := by
  induction times generalizing t asked with
  | nil => rfl
  | cons now rest ih => exact congrArg (now :: ·) (ih _ _)

/-- **A throttled stream keeps to its law**, whatever its source answers and whenever it is polled,
if time does not go back. -/
theorem turns_lawful (period : Nat) (script : List (Poll α)) {times : List Nat}
    (h : times.Pairwise (· ≤ ·)) :
    (turns script (new period) 0 times).map Turn.time = times ∧
      ∀ before turn after, turns script (new period) 0 times = before ++ turn :: after →
        turn.Lawful period script before :=
  ⟨map_time_turns script (new period) 0 times, fun _ _ _ hturns =>
    lawful_of_keeps (keeps_new period script 0)
      (List.pairwise_cons.2 ⟨fun time _ => Nat.zero_le time, h⟩) hturns⟩

/-- A source of which the last item comes when the gate is closed. -/
def bursty : List (Poll Nat) :=
  [.item 1, .waiting, .item 2, .item 3, .waiting, .item 4, .waiting, .item 5, .ended]

theorem turns_lawful_bursty :
    [0, 3, 10, 12, 20, 30].Pairwise (· ≤ ·) ∧
      Turn.Lawful 10 bursty
        [⟨0, .item 1, none, 2⟩, ⟨3, .waiting, some 3, 5⟩, ⟨10, .item 4, none, 7⟩,
          ⟨12, .waiting, some 5, 9⟩]
        ⟨20, .item 5, none, 9⟩ :=
  have htimes : [0, 3, 10, 12, 20, 30].Pairwise (· ≤ ·) := by decide
  ⟨htimes, (turns_lawful 10 bursty htimes).2 _ _ [⟨30, .ended, none, 9⟩] rfl⟩

end Throttle

end Downlink
