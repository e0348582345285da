import Mathlib.Data.Finset.Card

/-! # The mapper trace

The GPE thread appends events to a vector and publishes how many there are. A dump on another thread
reads on from where the last one stopped, under the lock that the start and the end of a collective
take. A locked section and an access to the atomic size are one step each.
-/
namespace TorchComms.Mapper.Trace

open Function

/-- What is recorded within a collective. A request may be a null pointer. -/
inductive MapperEvent
  | copyStart (sourceBuffer destBuffer length stream : ℕ) (req : Option ℕ)
  | sendCtrlStart (buffer mapperHandle : ℕ) (peerRank : ℤ) (req : Option ℕ)
  | recvCtrlStart (recvBufferPtr accessKeyPtr : ℕ) (peerRank : ℤ) (req : Option ℕ)
  | sendSyncCtrlStart (peerRank : ℤ) (req : Option ℕ)
  | recvSyncCtrlStart (peerRank : ℤ) (req : Option ℕ)
  | putStart (sendBuffer remoteBuffer length : ℕ) (peerRank : ℤ)
      (sourceHandle remoteAccessKey : ℕ) (req : Option ℕ)
  | recvNotified (peerRank : ℤ)
  | mapperRequestEnd (req : ℕ)
  deriving DecidableEq, Repr

namespace MapperEvent

/-- The request of a start event. -/
def startReq : MapperEvent → Option ℕ
  | copyStart _ _ _ _ req => req
  | sendCtrlStart _ _ _ req => req
  | recvCtrlStart _ _ _ req => req
  | sendSyncCtrlStart _ req => req
  | recvSyncCtrlStart _ req => req
  | putStart _ _ _ _ _ _ req => req
  | recvNotified _ => none
  | mapperRequestEnd _ => none

/-- `holds_alternative<PutStart>`, with the peer of the put. -/
def putPeer : MapperEvent → Option ℤ
  | putStart _ _ _ peerRank _ _ _ => some peerRank
  | _ => none

end MapperEvent

/-- The maps by peer are zero where they have no entry. `unfinishedRequests` has the index of the
start event with each request. -/
structure CurCollInfo where
  readIndex : ℕ
  currentColl : Option ℕ
  recvNotifiedByPeer : ℤ → ℕ
  putFinishedByPeer : ℤ → ℕ
  unfinishedRequests : List (ℕ × ℕ)

namespace CurCollInfo

/-- After `clear`. -/
def cleared : CurCollInfo := ⟨0, none, fun _ => 0, fun _ => 0, []⟩

/-- `emplace` keeps the entry that is there. -/
def recordStart (info : CurCollInfo) (req : ℕ) : CurCollInfo :=
  if info.unfinishedRequests.any fun entry => entry.1 = req then info
  else
    { info with unfinishedRequests := info.unfinishedRequests ++ [(req, info.readIndex)] }

def recordNotified (info : CurCollInfo) (peerRank : ℤ) : CurCollInfo :=
  { info with
    recvNotifiedByPeer :=
      update info.recvNotifiedByPeer peerRank (info.recvNotifiedByPeer peerRank + 1) }

/-- A request has finished whose start event is this one. -/
def finish (info : CurCollInfo) (req : ℕ) (reqEvent : MapperEvent) : CurCollInfo :=
  { info with
    putFinishedByPeer :=
      match reqEvent.putPeer with
      | some peerRank =>
        update info.putFinishedByPeer peerRank (info.putFinishedByPeer peerRank + 1)
      | none => info.putFinishedByPeer
    unfinishedRequests := info.unfinishedRequests.filter fun entry => entry.1 ≠ req }

/-- An index outside of the vector throws. -/
def recordEnd (history : List MapperEvent) (size : ℕ) (info : CurCollInfo) (req : ℕ) :
    Option CurCollInfo :=
  match info.unfinishedRequests.find? fun entry => entry.1 = req with
  | none => some info
  | some (_, eventIndex) =>
    if size ≤ eventIndex then some info
    else history[eventIndex]?.map fun reqEvent => info.finish req reqEvent

/-- `recordMapperEventImpl`. -/
def record (history : List MapperEvent) (size : ℕ) (info : CurCollInfo) (event : MapperEvent) :
    Option CurCollInfo :=
  match event with
  | .recvNotified peerRank => some (info.recordNotified peerRank)
  | .mapperRequestEnd req => recordEnd history size info req
  | start =>
    match start.startReq with
    | some req => some (info.recordStart req)
    | none => some info

/-- The loop of a dump, with the number of events that are left to be read. -/
def readOn (history : List MapperEvent) (size : ℕ) : ℕ → CurCollInfo → Option CurCollInfo
  | 0, info => some info
  | left + 1, info =>
    match history[info.readIndex]? with
    | none => none
    | some event =>
      match record history size info event with
      | none => none
      | some info => readOn history size left { info with readIndex := info.readIndex + 1 }

end CurCollInfo

/-- The unfinished requests are their start events with their index, the `seqNum`. -/
structure Dump where
  currentColl : Option ℕ
  recvNotifiedByPeer : ℤ → ℕ
  putFinishedByPeer : ℤ → ℕ
  unfinishedRequests : List (MapperEvent × ℕ)

/-- `storing` is the size that the GPE thread has yet to publish. The collective that it records and
the events of that are ghosts. -/
structure State where
  eventHistory : List MapperEvent
  eventHistorySize : ℕ
  info : CurCollInfo
  shouldTrace : Bool
  storing : Option ℕ
  active : Option ℕ
  own : List MapperEvent

namespace State

def init : State := ⟨[], 0, .cleared, false, none, none, []⟩

/-- The number of events of the collective that are published. -/
def published (s : State) : ℕ := if s.storing = none then s.own.length else s.own.length - 1

def collStart (s : State) (coll : Option ℕ) : State :=
  { s with
    shouldTrace := true
    info :=
      if coll = none ∨ s.info.currentColl ≠ none then s.info
      else { s.info with currentColl := coll }
    active := coll
    own := [] }

/-- `recordMapperEvent` up to the store of the size. -/
def append (s : State) (recordMax : ℕ) (event : MapperEvent) : State :=
  if s.shouldTrace = false ∨ s.eventHistorySize = recordMax then s
  else
    { s with
      eventHistory := s.eventHistory ++ [event]
      storing := some (s.eventHistorySize + 1)
      own := s.own ++ [event] }

def publish (s : State) (size : ℕ) : State := { s with eventHistorySize := size, storing := none }

def collEnd (s : State) : State :=
  { s with
    shouldTrace := false
    info := .cleared
    eventHistorySize := 0
    active := none
    own := [] }

/-- The loop of a dump. -/
def readAll (s : State) : Option CurCollInfo :=
  s.info.readOn s.eventHistory s.eventHistorySize (s.eventHistorySize - s.info.readIndex)

/-- What a dump returns when its loop has come to this. -/
def dumpOf (s : State) (info : CurCollInfo) : Option Dump :=
  (info.unfinishedRequests.mapM fun entry =>
    s.eventHistory[entry.2]?.map fun event => (event, entry.2)).map fun unfinished =>
      { currentColl := info.currentColl
        recvNotifiedByPeer := info.recvNotifiedByPeer
        putFinishedByPeer := info.putFinishedByPeer
        unfinishedRequests := unfinished }

end State

/-! ## What a dump should say -/

/-- The request has been started at this index, and not ended since. -/
def Unfinished (evs : List MapperEvent) (req i : ℕ) : Prop :=
  ∃ e, evs[i]? = some e ∧ e.startReq = some req ∧
    ∀ k, i < k → evs[k]? ≠ some (.mapperRequestEnd req)

/-- A put to this peer has been started at this index, and ended since. -/
def Finished (evs : List MapperEvent) (peerRank : ℤ) (i : ℕ) : Prop :=
  ∃ e req k, evs[i]? = some e ∧ e.putPeer = some peerRank ∧ e.startReq = some req ∧ i < k ∧
    evs[k]? = some (.mapperRequestEnd req)

open Classical in
noncomputable def finishedPuts (evs : List MapperEvent) (peerRank : ℤ) : ℕ :=
  ((Finset.range evs.length).filter (Finished evs peerRank)).card

/-- A dump tells this of a collective with these events. -/
structure Describes (coll : Option ℕ) (evs : List MapperEvent) (d : Dump) : Prop where
  currentColl : d.currentColl = coll
  recvNotified : ∀ p, d.recvNotifiedByPeer p = evs.count (.recvNotified p)
  putFinished : ∀ p, d.putFinishedByPeer p = finishedPuts evs p
  unfinished : ∀ e i, (e, i) ∈ d.unfinishedRequests ↔
    evs[i]? = some e ∧ ∃ req, Unfinished evs req i
  nodup : d.unfinishedRequests.Nodup

/-- What a dump reads are the events of the collective, the vector keeps to its capacity, and a dump
describes what has been published at least. -/
structure Sound (recordMax : ℕ) (s : State) : Prop where
  reads : ∀ i < s.eventHistorySize, s.eventHistory[i]? = s.own[i]?
  capacity : s.eventHistory.length ≤ recordMax
  dump : ∃ info d, s.readAll = some info ∧ s.dumpOf info = some d ∧
    ∃ evs, evs <+: s.own ∧ s.published ≤ evs.length ∧ Describes s.active evs d

/-! ## Runs -/

inductive Op
  | collStart (coll : Option ℕ)
  | append (event : MapperEvent)
  | publish
  | collEnd
  | dump
  deriving DecidableEq, Repr

/-- Collectives follow each other. One has no more events than the maximum, and uses the address of
a request again when that has ended. -/
inductive Step (recordMax : ℕ) (s : State) : Op → State → Prop
  | collStart (coll : Option ℕ) (htrace : s.shouldTrace = false) (hstoring : s.storing = none) :
      Step recordMax s (.collStart coll) (s.collStart coll)
  | append (event : MapperEvent) (hstoring : s.storing = none)
      (hcount : s.shouldTrace = true → s.own.length < recordMax)
      (hreuse : s.shouldTrace = true →
        ∀ req, event.startReq = some req → ∀ i, ¬Unfinished s.own req i) :
      Step recordMax s (.append event) (s.append recordMax event)
  | publish (size : ℕ) (hstoring : s.storing = some size) :
      Step recordMax s .publish (s.publish size)
  | collEnd (htrace : s.shouldTrace = true) (hstoring : s.storing = none) :
      Step recordMax s .collEnd s.collEnd
  | dump (info : CurCollInfo) (hread : s.readAll = some info) :
      Step recordMax s .dump { s with info := info }

/-- An event is recorded where the vector holds no more than is published. -/
def Meets (s : State) : Op → Prop
  | .append _ => s.shouldTrace = true → s.eventHistory.length = s.eventHistorySize
  | _ => True

/-- The states of the runs whose steps all meet a condition. -/
inductive Reachable (recordMax : ℕ) (cond : State → Op → Prop) : State → Prop
  | init : Reachable recordMax cond .init
  | step {s s' : State} {op : Op} (h : Reachable recordMax cond s)
      (hstep : Step recordMax s op s') (hop : cond s op) : Reachable recordMax cond s'

end TorchComms.Mapper.Trace
