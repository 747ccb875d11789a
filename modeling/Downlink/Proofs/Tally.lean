import Downlink.Proofs.CallsMade
import Downlink.Proofs.FrameInDatagram

/-!
# What the counters tell

The counters keep one number for each outcome that a datagram may have. Decoding finds no fault with
a layout, which was checked when it was made, so two of these outcomes are out of the question
(`outcome_ne_otherFieldError`, `outcome_ne_trailingBits`). Counting a datagram adds one to the number
of its outcome and to no other (`number_addOutcome`). So the counters after some calls tell how many
of the datagrams came to each outcome, and how often the source failed (`tells_tally`).
-/

namespace Downlink

/-! ## Outcomes -/

/-- What may become of a datagram, as far as the counters tell it apart. -/
inductive Outcome
  | record
  | syncNotFound
  | terminatorNotFound
  | insufficientBits
  | trailingBits
  | otherFieldError
deriving DecidableEq, Repr

def Outcome.ofError : DecodeError → Outcome
  | .framing (.syncNotFound ..) => .syncNotFound
  | .framing (.terminatorNotFound ..) => .terminatorNotFound
  | .unpacking (.insufficientBits ..) => .insufficientBits
  | .unpacking (.trailingBits ..) => .trailingBits
  | .unpacking _ => .otherFieldError

namespace Decoder

variable {d : Decoder} {datagram : Bytes}

def outcome (d : Decoder) (datagram : Bytes) : Outcome :=
  match d.decode datagram with
  | .ok _ => .record
  | .error error => .ofError error

theorem outcome_cases (d : Decoder) (datagram : Bytes) :
    d.outcome datagram ∈ [.record, .syncNotFound, .terminatorNotFound, .insufficientBits] ∨
      d.exact = true ∧ d.outcome datagram = .trailingBits := by
  cases hextract : d.markers.extract datagram with
  | error cause =>
    have hdecode : d.decode datagram = .error (.framing cause) := by
      simp only [decode, hextract]
    cases cause <;> simp [outcome, hdecode, Outcome.ofError]
  | ok payload =>
    rcases decode_of_extract hextract with ⟨-, f, offset, -, -, -, hdecode⟩ |
      ⟨hexact, -, hdecode⟩ | ⟨-, -, hdecode⟩
    · simp [outcome, hdecode, Outcome.ofError]
    · simp [outcome, hdecode, hexact, Outcome.ofError]
    · simp [outcome, hdecode]

/-- **No datagram whatever reveals a fault of the layout.** -/
theorem outcome_ne_otherFieldError (d : Decoder) (datagram : Bytes) :
    d.outcome datagram ≠ .otherFieldError := by
  intro h
  have hcases := d.outcome_cases datagram
  simp [h] at hcases

theorem outcome_ne_trailingBits (hexact : d.exact = false) (datagram : Bytes) :
    d.outcome datagram ≠ .trailingBits := by
  intro h
  have hcases := d.outcome_cases datagram
  simp [h, hexact] at hcases

/-- The counters with one more datagram. -/
def addOutcome (d : Decoder) (c : Counters) (datagram : Bytes) : Counters :=
  match d.decode datagram with
  | .ok _ => c.addRecord
  | .error error => c.addFailure error

/-- The counters of some datagrams from a source that never failed. -/
def counters (d : Decoder) (datagrams : List Bytes) : Counters :=
  datagrams.foldl d.addOutcome .zero

end Decoder

/-! ## One number for each outcome -/

namespace Counters

variable {d : Decoder} {c later : Counters} {given more : List Bytes} {failures count : Nat}

/-- How many datagrams came to an outcome. -/
def number (c : Counters) : Outcome → Nat
  | .record => c.records
  | .syncNotFound => c.syncNotFound
  | .terminatorNotFound => c.terminatorNotFound
  | .insufficientBits => c.insufficientBits
  | .trailingBits => c.trailingBits
  | .otherFieldError => c.otherFieldErrors

theorem number_addRecord (c : Counters) (o : Outcome) :
    c.addRecord.number o = c.number o + if Outcome.record = o then 1 else 0 := by
  cases o <;> rfl

theorem number_addFailure (c : Counters) (e : DecodeError) (o : Outcome) :
    (c.addFailure e).number o = c.number o + if Outcome.ofError e = o then 1 else 0 := by
  rcases e with (_ | _) | cause
  · cases o <;> rfl
  · cases o <;> rfl
  · cases cause <;> cases o <;> rfl

theorem addFailure_counts (c : Counters) (e : DecodeError) :
    (c.addFailure e).datagrams = c.datagrams + 1 ∧
      (c.addFailure e).transportErrors = c.transportErrors := by
  rcases e with (_ | _) | cause
  · exact ⟨rfl, rfl⟩
  · exact ⟨rfl, rfl⟩
  · cases cause <;> exact ⟨rfl, rfl⟩

theorem number_addTransportError (c : Counters) (o : Outcome) :
    c.addTransportError.number o = c.number o := by
  cases o <;> rfl

/-- **A datagram adds one to the number of its outcome, and to no other.** -/
theorem number_addOutcome (d : Decoder) (c : Counters) (datagram : Bytes) (o : Outcome) :
    (d.addOutcome c datagram).number o =
      c.number o + if d.outcome datagram = o then 1 else 0 := by
  unfold Decoder.addOutcome Decoder.outcome
  cases d.decode datagram with
  | ok record => exact number_addRecord c o
  | error error => exact number_addFailure c error o

theorem addOutcome_counts (d : Decoder) (c : Counters) (datagram : Bytes) :
    (d.addOutcome c datagram).datagrams = c.datagrams + 1 ∧
      (d.addOutcome c datagram).transportErrors = c.transportErrors := by
  unfold Decoder.addOutcome
  cases d.decode datagram with
  | ok record => exact ⟨rfl, rfl⟩
  | error error => exact addFailure_counts c error

theorem Balanced.addOutcome (h : c.Balanced) (d : Decoder) (datagram : Bytes) :
    (d.addOutcome c datagram).Balanced := by
  unfold Decoder.addOutcome
  cases d.decode datagram with
  | ok record => exact h.addRecord
  | error error => exact h.addFailure error

/-! ## What they tell -/

/-- Counters tell what became of some datagrams, and how often the source failed. -/
structure Tells (d : Decoder) (given : List Bytes) (failures : Nat) (c : Counters) : Prop where
  datagrams : c.datagrams = given.length
  outcomes : ∀ o, c.number o = given.countP fun datagram => d.outcome datagram = o
  transportErrors : c.transportErrors = failures
  balanced : c.Balanced

theorem tells_zero (d : Decoder) : Tells d [] 0 .zero where
  datagrams := rfl
  outcomes := fun o => by cases o <;> rfl
  transportErrors := rfl
  balanced := balanced_zero

theorem Tells.addOutcome (h : c.Tells d given failures) (datagram : Bytes) :
    (d.addOutcome c datagram).Tells d (given ++ [datagram]) failures where
  datagrams := by
    rw [(addOutcome_counts d c datagram).1, h.datagrams, List.length_append, List.length_singleton]
  outcomes := fun o => by
    rw [number_addOutcome, h.outcomes, List.countP_append, List.countP_singleton]
    simp only [decide_eq_true_eq]
  transportErrors := by
    rw [(addOutcome_counts d c datagram).2, h.transportErrors]
  balanced := h.balanced.addOutcome d datagram

theorem Tells.addTransportError (h : c.Tells d given failures) :
    c.addTransportError.Tells d given (failures + 1) where
  datagrams := h.datagrams
  outcomes := fun o => by
    rw [number_addTransportError, h.outcomes]
  transportErrors := congrArg (· + 1) h.transportErrors
  balanced := h.balanced.addTransportError

theorem Tells.otherFieldErrors_eq_zero (h : c.Tells d given failures) :
    c.otherFieldErrors = 0 := by
  have hnumber := h.outcomes .otherFieldError
  rw [List.countP_eq_zero.2 fun datagram _ => by simp [d.outcome_ne_otherFieldError]] at hnumber
  exact hnumber

theorem Tells.trailingBits_eq_zero (h : c.Tells d given failures) (hexact : d.exact = false) :
    c.trailingBits = 0 := by
  have hnumber := h.outcomes .trailingBits
  rw [List.countP_eq_zero.2 fun datagram _ => by
    simp [Decoder.outcome_ne_trailingBits hexact]] at hnumber
  exact hnumber

/-- No number is above the one in later counters. -/
structure AtMost (c later : Counters) : Prop where
  datagrams : c.datagrams ≤ later.datagrams
  outcomes : ∀ o, c.number o ≤ later.number o
  transportErrors : c.transportErrors ≤ later.transportErrors

theorem AtMost.refl (c : Counters) : c.AtMost c :=
  ⟨Nat.le_refl _, fun _ => Nat.le_refl _, Nat.le_refl _⟩

theorem AtMost.trans {b : Counters} (h : b.AtMost c) (hlater : c.AtMost later) : b.AtMost later where
  datagrams := Nat.le_trans h.datagrams hlater.datagrams
  outcomes := fun o => Nat.le_trans (h.outcomes o) (hlater.outcomes o)
  transportErrors := Nat.le_trans h.transportErrors hlater.transportErrors

theorem Tells.atMost (h : c.Tells d given failures) (hlater : later.Tells d more count)
    (hmore : given <+: more) (hcount : failures ≤ count) : c.AtMost later where
  datagrams := by
    rw [h.datagrams, hlater.datagrams]
    exact hmore.length_le
  outcomes := fun o => by
    rw [h.outcomes, hlater.outcomes]
    exact hmore.sublist.countP_le
  transportErrors := by
    rw [h.transportErrors, hlater.transportErrors]
    exact hcount

end Counters

/-! ## Calls -/

namespace ReceiveLoop

variable {l : ReceiveLoop} {c : Counters} {before : Source}

theorem count_of_datagram {call : Call} {d : RawDatagram} (h : call.answer = .datagram d) :
    l.count c call = l.decoder.addOutcome c d.bytes := by
  rw [count, h]
  rfl

theorem tells_count (h : c.Tells l.decoder before.datagrams (before.countP Call.isFailure))
    (call : Call) :
    (l.count c call).Tells l.decoder (before ++ [call]).datagrams
      ((before ++ [call]).countP Call.isFailure) := by
  rw [Source.datagrams_append, List.countP_append, List.countP_singleton]
  cases hcall : call.answer with
  | datagram d =>
    have hfailure : ¬ call.isFailure = true := by
      simp [Call.isFailure, hcall]
    rw [count_of_datagram hcall, Source.datagrams_cons_of_datagram hcall, if_neg hfailure]
    exact h.addOutcome d.bytes
  | failure error =>
    have hfailure : call.isFailure = true := by
      simp [Call.isFailure, hcall]
    rw [Source.datagrams_cons_of_not_datagram (by simp [hcall]), if_pos hfailure]
    simp only [count, hcall, Source.datagrams_nil, List.append_nil]
    exact h.addTransportError
  | exhausted =>
    have hfailure : ¬ call.isFailure = true := by
      simp [Call.isFailure, hcall]
    rw [Source.datagrams_cons_of_not_datagram (by simp [hcall]), if_neg hfailure]
    simp only [count, hcall, Source.datagrams_nil, List.append_nil]
    exact h

theorem tells_foldl_count
    (h : c.Tells l.decoder before.datagrams (before.countP Call.isFailure)) (calls : Source) :
    (calls.foldl l.count c).Tells l.decoder (before ++ calls).datagrams
      ((before ++ calls).countP Call.isFailure) := by
  induction calls generalizing before c with
  | nil =>
    rw [List.append_nil]
    exact h
  | cons call rest ih =>
    have hrest := ih (tells_count h call)
    rw [List.append_assoc] at hrest
    exact hrest

theorem tells_tally (l : ReceiveLoop) (calls : Source) :
    (l.tally calls).Tells l.decoder calls.datagrams (calls.countP Call.isFailure) := by
  have hnothing : Counters.zero.Tells l.decoder (Source.datagrams [])
      (List.countP Call.isFailure []) := Counters.tells_zero l.decoder
  exact tells_foldl_count hnothing calls

theorem tally_atMost_tally (l : ReceiveLoop) {calls more : Source} (h : calls <+: more) :
    (l.tally calls).AtMost (l.tally more) :=
  (tells_tally l calls).atMost (tells_tally l more) (Source.datagrams_isPrefix h) h.sublist.countP_le

end ReceiveLoop

end Downlink
