import CCForge.Channel.Model

/-!
# What a bounded channel is for

The abstract channel: a bounded buffer, a line of waiting senders, a line of
waiting receivers, and for every operation whether it is fresh, waiting or ended.
Locks, callbacks, links and completions that are still to be run are gone; the
refinement module shows that every step of the channel is one of these.
-/

namespace CCForge.Channel

inductive Status (β : Type*) where
  | fresh
  | waiting
  | ended (outcome : β)
  deriving DecidableEq, Repr

/-- The outcomes of a send whose value went into the channel. -/
def SendOutcome.Delivered (o : SendOutcome) : Prop := o = .value ∨ o = .returned true

/-- The outcomes of a receive that got this value. -/
def RecvOutcome.Got {α : Type*} (o : RecvOutcome α) (v : α) : Prop :=
  o = .value (some v) ∨ o = .returned (some v)

structure Spec (α : Type*) where
  capacity : ℕ
  value : RecordId → α
  closed : Bool := false
  stopped : Bool := false
  buffer : List (RecordId × α) := []
  senders : List RecordId := []
  receivers : List RecordId := []
  sent : RecordId → Status SendOutcome := fun _ => .fresh
  received : RecordId → Status (RecvOutcome α) := fun _ => .fresh
  accepted : List RecordId := []
  handed : List (Handover α) := []
  discarded : List RecordId := []
  failed : ℕ := 0

namespace Spec

variable {α : Type*}

def shut (s : Spec α) : Bool := s.stopped || s.closed

/-- Failed promotions are counted while somebody waits. -/
def settleFailed (senders : List RecordId) (failed : ℕ) : ℕ :=
  if senders.isEmpty then 0 else failed

/-- Ends every waiting operation of a line as stopped. -/
def stopAll {β : Type*} (line : List RecordId) (status : RecordId → Status β) (o : β) :
    RecordId → Status β :=
  fun i => if i ∈ line then .ended o else status i

inductive Step : Spec α → Spec α → Prop where
  | refuseSend (s : Spec α) (i : RecordId) (o : SendOutcome) (hi : s.sent i = .fresh)
      (ho : ¬ o.Delivered) :
      Step s { s with sent := Function.update s.sent i (.ended o) }
  | refuseRecv (s : Spec α) (r : RecordId) (o : RecvOutcome α) (hr : s.received r = .fresh)
      (ho : ∀ v, ¬ o.Got v) :
      Step s { s with received := Function.update s.received r (.ended o) }
  | sendDirect (s : Spec α) (i r : RecordId) (rest : List RecordId) (o : SendOutcome)
      (hshut : s.shut = false) (hi : s.sent i = .fresh) (hr : s.receivers = r :: rest)
      (ho : o.Delivered) :
      Step s { s with receivers := rest
                      sent := Function.update s.sent i (.ended o)
                      received := Function.update s.received r (.ended (.value (some (s.value i))))
                      accepted := s.accepted ++ [i]
                      handed := s.handed ++ [⟨i, s.value i, r⟩] }
  | sendBuffer (s : Spec α) (i : RecordId) (o : SendOutcome) (hshut : s.shut = false)
      (hi : s.sent i = .fresh) (hr : s.receivers = []) (hs : s.senders = [])
      (hroom : s.buffer.length < s.capacity) (ho : o.Delivered) :
      Step s { s with buffer := s.buffer ++ [(i, s.value i)]
                      sent := Function.update s.sent i (.ended o)
                      accepted := s.accepted ++ [i] }
  | sendWait (s : Spec α) (i : RecordId) (hshut : s.shut = false) (hi : s.sent i = .fresh)
      (hr : s.receivers = []) (hfull : s.senders = [] → s.capacity ≤ s.buffer.length) :
      Step s { s with senders := s.senders ++ [i]
                      sent := Function.update s.sent i .waiting
                      accepted := s.accepted ++ [i] }
  | recvBuffer (s : Spec α) (r j : RecordId) (v : α) (rest : List (RecordId × α))
      (o : RecvOutcome α) (hr : s.received r = .fresh) (hb : s.buffer = (j, v) :: rest)
      (hs : s.senders = []) (ho : o.Got v) :
      Step s { s with buffer := rest
                      received := Function.update s.received r (.ended o)
                      handed := s.handed ++ [⟨j, v, r⟩] }
  | recvPromote (s : Spec α) (r j k : RecordId) (v : α) (rest : List (RecordId × α))
      (line : List RecordId) (o : RecvOutcome α) (hr : s.received r = .fresh)
      (hb : s.buffer = (j, v) :: rest) (hs : s.senders = k :: line) (ho : o.Got v) :
      Step s { s with buffer := rest ++ [(k, s.value k)]
                      senders := line
                      sent := Function.update s.sent k (.ended .value)
                      received := Function.update s.received r (.ended o)
                      handed := s.handed ++ [⟨j, v, r⟩]
                      failed := settleFailed line s.failed }
  | recvPromoteFail (s : Spec α) (r j k : RecordId) (v : α) (rest : List (RecordId × α))
      (line : List RecordId) (o : RecvOutcome α) (hr : s.received r = .fresh)
      (hb : s.buffer = (j, v) :: rest) (hs : s.senders = k :: line) (ho : o.Got v) :
      Step s { s with buffer := rest
                      senders := line
                      sent := Function.update s.sent k (.ended .error)
                      received := Function.update s.received r (.ended o)
                      handed := s.handed ++ [⟨j, v, r⟩]
                      failed := settleFailed line (s.failed + 1) }
  | recvDirect (s : Spec α) (r i : RecordId) (line : List RecordId) (o : RecvOutcome α)
      (hr : s.received r = .fresh) (hb : s.buffer = []) (hs : s.senders = i :: line)
      (ho : o.Got (s.value i)) :
      Step s { s with senders := line
                      sent := Function.update s.sent i (.ended .value)
                      received := Function.update s.received r (.ended o)
                      handed := s.handed ++ [⟨i, s.value i, r⟩]
                      failed := settleFailed line s.failed }
  | recvWait (s : Spec α) (r : RecordId) (hshut : s.shut = false) (hr : s.received r = .fresh)
      (hb : s.buffer = []) (hs : s.senders = []) :
      Step s { s with receivers := s.receivers ++ [r]
                      received := Function.update s.received r .waiting }
  | dropSend (s : Spec α) (i : RecordId) (hi : i ∈ s.senders) :
      Step s { s with senders := s.senders.erase i
                      sent := Function.update s.sent i (.ended .stopped)
                      failed := settleFailed (s.senders.erase i) s.failed }
  | dropRecv (s : Spec α) (r : RecordId) (hr : r ∈ s.receivers) :
      Step s { s with receivers := s.receivers.erase r
                      received := Function.update s.received r (.ended .stopped) }
  | close (s : Spec α) :
      Step s { s with closed := true, senders := [], receivers := [], failed := 0
                      sent := stopAll s.senders s.sent .stopped
                      received := stopAll s.receivers s.received .stopped }
  | requestStop (s : Spec α) :
      Step s { s with stopped := true, senders := [], receivers := [], failed := 0
                      sent := stopAll s.senders s.sent .stopped
                      received := stopAll s.receivers s.received .stopped
                      buffer := []
                      discarded := s.discarded ++ s.buffer.map Prod.fst }

end Spec
end CCForge.Channel
