import Mathlib.Algebra.Ring.Nat
import Mathlib.Data.List.AList

/-! # `CommStateX`: where the ranks of a communicator are

A communicator groups its ranks by host, or, where the NVL fabric is in use, by NVL domain or by
clique. Every accessor takes a rank, `-1` for the calling rank.
-/
namespace TorchComms.CommState

/-- A failed check, a lookup outside of a container, or undefined behaviour. -/
inductive Fault where
  | checkAbort
  | outOfRange
  | undefined
deriving DecidableEq, Repr

inductive NCCL_COMM_STATE_DEBUG_TOPO where
  | system
  | nolocal
  | vnode
deriving DecidableEq, Repr

/-- The environment that the topology is read under. -/
structure Cvars where
  NCCL_COMM_STATE_DEBUG_TOPO : NCCL_COMM_STATE_DEBUG_TOPO := .system
  NCCL_COMM_STATE_DEBUG_TOPO_VNODE_NLOCALRANKS : ℤ := 2
  NCCL_CTRAN_NVL_FABRIC_ENABLE : Bool := false
  NCCL_MNNVL_CLIQUE_SIZE : ℤ := 0
  NCCL_MNNVL_DETERMINISTIC_COLLECTIVE_ENABLE : Bool := false
deriving DecidableEq, Repr

structure RankTopology where
  rank : ℤ := -1
  host : String
  rtsw : String := ""
  su : String := ""
  zone : String := ""
  dc : String := ""
  rackSerial : ℤ := -1
deriving DecidableEq, Repr

structure NvlFabricTopology where
  rank : ℤ := -1
  supportNvlFabric : Bool := false
  clusterId : String := ""
  cliqueId : ℤ := 0
deriving DecidableEq, Repr

structure RankState where
  rank : ℤ := -1
  host : String := ""
  rtsw : String := ""
  su : String := ""
  dc : String := ""
  zone : String := ""
  nodeId : ℤ := -1
  localRank : ℤ := -1
  nLocalRanks : ℤ := -1
  localRankToRanks : List ℤ := []
  rackSerial : ℤ := -1
deriving DecidableEq, Repr

structure NvlFabricRankState where
  rank : ℤ := -1
  nvlDomainRank : ℤ := -1
  clusterId : String := ""
  nvlDomainIndex : ℤ := -1
  nNvlDomainRanks : ℤ := -1
  nvlDomainRankToRank : List ℤ := []
  cliqueRank : ℤ := -1
  cliqueId : ℤ := -1
  cliqueIndex : ℤ := -1
  nCliqueRanks : ℤ := -1
  cliqueRankToRank : List ℤ := []
deriving DecidableEq, Repr

structure CommStateX where
  rank_ : ℤ
  nRanks_ : ℤ
  rankTopologies_ : List RankTopology := []
  hostToRanks_ : AList fun _ : String => List ℤ := ∅
  nodeRanks_ : List (List ℤ) := []
  nvlDomainRanks_ : List (List ℤ) := []
  cliqueRanks_ : List (List ℤ) := []
  rankStates_ : List RankState := []
  nvlFabricRankStates_ : List NvlFabricRankState := []
  myNvlFabricRankState_ : NvlFabricRankState := {}
  nvlFabricEnabled_ : Bool := false
  nvlFabricCliqueEnabled_ : Bool := false
  nvlFabricTopos_ : List NvlFabricTopology := []

/-- `std::vector::at`; a negative index is a large one. -/
def vectorAt {α : Type} (xs : List α) (i : ℤ) : Except Fault α :=
  if 0 ≤ i then
    match xs[i.toNat]? with
    | some x => .ok x
    | none => .error .outOfRange
  else .error .outOfRange

/-- `xs.at(i).emplace_back(x)` on a vector of vectors. -/
def emplaceBackAt {α : Type} (xs : List (List α)) (i : ℤ) (x : α) : Except Fault (List (List α)) :=
  if 0 ≤ i ∧ i < xs.length then .ok (xs.modify i.toNat (· ++ [x])) else .error .outOfRange

/-- `map.at(k)`. -/
def mapAt {κ β : Type} [DecidableEq κ] (m : AList fun _ : κ => β) (k : κ) : Except Fault β :=
  match m.lookup k with
  | some v => .ok v
  | none => .error .outOfRange

/-! ### Topologies by host -/

/-- The host name that a rank is grouped by. -/
def Cvars.host (env : Cvars) (t : RankTopology) : Except Fault String :=
  match env.NCCL_COMM_STATE_DEBUG_TOPO with
  | .system => .ok t.host
  | .nolocal => .ok ("nolocal_node_" ++ toString t.rank)
  | .vnode =>
    if env.NCCL_COMM_STATE_DEBUG_TOPO_VNODE_NLOCALRANKS = 0 then .error .undefined
    else .ok ("vnode_node_" ++
      toString (t.rank.tdiv env.NCCL_COMM_STATE_DEBUG_TOPO_VNODE_NLOCALRANKS))

/-- The data center of a rank: the first part of the zone, where none is given. -/
def RankTopology.dataCenter (t : RankTopology) : String :=
  if t.dc.isEmpty then
    match t.zone.splitOn "." with
    | token :: _ :: _ => token
    | _ => t.dc
  else t.dc

namespace CommStateX

/-- One round of the first loop of `setRankStatesTopologies`. -/
def addRankTopology (env : Cvars) (s : CommStateX) (t : RankTopology) : Except Fault CommStateX := do
  let host ← env.host t
  let ranks := (s.hostToRanks_.lookup host).getD [] ++ [t.rank]
  let hostToRanks := s.hostToRanks_.insert host ranks
  .ok { s with
    hostToRanks_ := hostToRanks
    rankStates_ := s.rankStates_ ++ [{
      rank := t.rank
      host := host
      rtsw := t.rtsw
      su := t.su
      dc := t.dataCenter
      zone := t.zone
      nodeId := hostToRanks.entries.length - 1
      localRank := ranks.length - 1
      rackSerial := t.rackSerial }] }

/-- The second loop: `nodeRanks_[state.nodeId].emplace_back(state.rank)`. -/
def addNodeRank (nodeRanks : List (List ℤ)) (state : RankState) : Except Fault (List (List ℤ)) :=
  if 0 ≤ state.nodeId ∧ state.nodeId < nodeRanks.length then
    .ok (nodeRanks.modify state.nodeId.toNat (· ++ [state.rank]))
  else .error .undefined

/-- The third loop. -/
def setLocalRanks (hostToRanks : AList fun _ : String => List ℤ) (state : RankState) :
    Except Fault RankState := do
  let ranks ← mapAt hostToRanks state.host
  .ok { state with localRankToRanks := ranks, nLocalRanks := ranks.length }

def setRankStatesTopologies (env : Cvars) (s : CommStateX) (rankTopologies : List RankTopology) :
    Except Fault CommStateX := do
  let s ← rankTopologies.foldlM (addRankTopology env) { s with
    rankStates_ := []
    nodeRanks_ := []
    hostToRanks_ := ∅
    rankTopologies_ := rankTopologies }
  let nodeRanks ← s.rankStates_.foldlM addNodeRank
    (List.replicate s.hostToRanks_.entries.length [])
  let rankStates ← s.rankStates_.mapM (setLocalRanks s.hostToRanks_)
  .ok { s with nodeRanks_ := nodeRanks, rankStates_ := rankStates }

/-! ### Topologies by NVL fabric -/

/-- The members and local variables that the loops of `setNvlFabricTopos` fill. -/
structure NvlTables where
  nvlDomainRanks_ : List (List ℤ) := []
  cliqueRanks_ : List (List ℤ)
  nvlFabricRankStates_ : List NvlFabricRankState := []
  clusterIdToNvlDomainIndex : AList fun _ : String => ℤ := ∅
  cliqueIdToCliqueIndex : AList fun _ : ℤ => ℤ := ∅

/-- The index of an id, a new one for a new id, and the rank of a new member in its group. -/
def joinGroup {κ : Type} [DecidableEq κ] (index : AList fun _ : κ => ℤ) (groups : List (List ℤ))
    (id : κ) (rank : ℤ) : Except Fault (ℤ × ℤ × (AList fun _ : κ => ℤ) × List (List ℤ)) := do
  let (index, groups) :=
    if (index.lookup id).isSome then (index, groups)
    else (index.insert id groups.length, groups ++ [[]])
  let i ← mapAt index id
  let group ← vectorAt groups i
  let groups ← emplaceBackAt groups i rank
  .ok (i, group.length, index, groups)

/-- One round of the first loop of `setNvlFabricTopos`. -/
def addNvlFabricTopology (nvlFabricCliqueEnabled : Bool) (t : NvlTables) (topo : NvlFabricTopology) :
    Except Fault NvlTables := do
  let i : ℕ := t.nvlFabricRankStates_.length
  if topo.supportNvlFabric then do
    let (nvlDomainIndex, nvlDomainRank, clusters, nvlDomainRanks) ←
      joinGroup t.clusterIdToNvlDomainIndex t.nvlDomainRanks_ topo.clusterId i
    if nvlFabricCliqueEnabled then do
      let (cliqueIndex, cliqueRank, cliques, cliqueRanks) ←
        joinGroup t.cliqueIdToCliqueIndex t.cliqueRanks_ topo.cliqueId i
      .ok ⟨nvlDomainRanks, cliqueRanks, t.nvlFabricRankStates_ ++ [{
        rank := i
        nvlDomainIndex := nvlDomainIndex
        clusterId := topo.clusterId
        nvlDomainRank := nvlDomainRank
        cliqueIndex := cliqueIndex
        cliqueRank := cliqueRank
        cliqueId := topo.cliqueId.bmod (2 ^ 32) }], clusters, cliques⟩
    else
      .ok ⟨nvlDomainRanks, t.cliqueRanks_, t.nvlFabricRankStates_ ++ [{
        rank := i
        nvlDomainIndex := nvlDomainIndex
        clusterId := topo.clusterId
        nvlDomainRank := nvlDomainRank }], clusters, t.cliqueIdToCliqueIndex⟩
  else .ok { t with nvlFabricRankStates_ := t.nvlFabricRankStates_ ++ [{ rank := i }] }

/-- One round of the second loop: the group of a rank. -/
def setNvlGroup (nvlFabricCliqueEnabled : Bool) (t : NvlTables)
    (r : NvlFabricTopology × NvlFabricRankState) : Except Fault NvlFabricRankState :=
  if r.1.supportNvlFabric then do
    let domain ← vectorAt t.nvlDomainRanks_ r.2.nvlDomainIndex
    let state := { r.2 with nNvlDomainRanks := domain.length, nvlDomainRankToRank := domain }
    if nvlFabricCliqueEnabled then do
      let clique ← vectorAt t.cliqueRanks_ state.cliqueIndex
      .ok { state with nCliqueRanks := clique.length, cliqueRankToRank := clique }
    else .ok state
  else .ok r.2

/-- The loops and the checks after them. -/
def nvlTables (nvlFabricCliqueEnabled : Bool) (cliqueRanks : List (List ℤ))
    (topos : List NvlFabricTopology) : Except Fault NvlTables := do
  let t ← topos.foldlM (addNvlFabricTopology nvlFabricCliqueEnabled) { cliqueRanks_ := cliqueRanks }
  let states ← (topos.zip t.nvlFabricRankStates_).mapM (setNvlGroup nvlFabricCliqueEnabled t)
  if t.clusterIdToNvlDomainIndex.entries.length ≠ t.nvlDomainRanks_.length then .error .checkAbort
  else if t.cliqueIdToCliqueIndex.entries.length ≠ t.cliqueRanks_.length then .error .checkAbort
  else .ok { t with nvlFabricRankStates_ := states }

def setNvlFabricTopos (env : Cvars) (s : CommStateX)
    (nvlFabricTopologies : List NvlFabricTopology) : Except Fault CommStateX := do
  if (nvlFabricTopologies.length : ℤ) ≠ s.nRanks_ then .error .checkAbort
  else do
    let my ← vectorAt nvlFabricTopologies s.rank_
    let nvlFabricEnabled := env.NCCL_CTRAN_NVL_FABRIC_ENABLE && my.supportNvlFabric
    if !nvlFabricEnabled then
      .ok { s with
        nvlFabricTopos_ := nvlFabricTopologies
        nvlFabricRankStates_ := []
        nvlDomainRanks_ := []
        nvlFabricEnabled_ := false }
    else do
      let nvlFabricCliqueEnabled := decide (0 < env.NCCL_MNNVL_CLIQUE_SIZE) &&
        env.NCCL_MNNVL_DETERMINISTIC_COLLECTIVE_ENABLE
      let t ← nvlTables nvlFabricCliqueEnabled s.cliqueRanks_ nvlFabricTopologies
      let my ← vectorAt t.nvlFabricRankStates_ s.rank_
      .ok { s with
        nvlFabricTopos_ := nvlFabricTopologies
        nvlFabricRankStates_ := t.nvlFabricRankStates_
        nvlDomainRanks_ := t.nvlDomainRanks_
        cliqueRanks_ := t.cliqueRanks_
        nvlFabricEnabled_ := true
        nvlFabricCliqueEnabled_ := nvlFabricCliqueEnabled
        myNvlFabricRankState_ := my }

/-! ### Accessors -/

/-- `CHECK_TOPO_SET`. -/
def checkTopoSet (s : CommStateX) : Except Fault Unit :=
  if s.rankStates_.length > 0 then .ok () else .error .checkAbort

/-- `CHECK_VALID_RANK`. -/
def checkValidRank (rank : ℤ) (maxSize : ℕ) : Except Fault Unit :=
  if 0 ≤ rank ∧ rank < maxSize then .ok () else .error .checkAbort

/-- `CHECK_TOPO_AND_SET_RANK`: the rank meant. -/
def checkTopoAndSetRank (s : CommStateX) (rank : ℤ) : Except Fault ℤ := do
  s.checkTopoSet
  let rank := if rank = -1 then s.rank_ else rank
  checkValidRank rank s.rankStates_.length
  .ok rank

/-- The fabric state of a rank; that of the calling rank is a copy. -/
def nvlState (s : CommStateX) (rank : ℤ) : Except Fault NvlFabricRankState :=
  if rank = s.rank_ then .ok s.myNvlFabricRankState_ else vectorAt s.nvlFabricRankStates_ rank

/-- An accessor that reads the clique, the NVL domain or the host of a rank. -/
def select {α : Type} (clique domain : NvlFabricRankState → α) (host : RankState → α)
    (s : CommStateX) (rank : ℤ) : Except Fault α := do
  let rank ← s.checkTopoAndSetRank rank
  if s.nvlFabricEnabled_ then
    if s.nvlFabricCliqueEnabled_ then (s.nvlState rank).map clique
    else (s.nvlState rank).map domain
  else (vectorAt s.rankStates_ rank).map host

def node (s : CommStateX) (rank : ℤ) : Except Fault ℤ :=
  s.select NvlFabricRankState.cliqueIndex NvlFabricRankState.nvlDomainIndex RankState.nodeId rank

def localRank (s : CommStateX) (rank : ℤ) : Except Fault ℤ :=
  s.select NvlFabricRankState.cliqueRank NvlFabricRankState.nvlDomainRank RankState.localRank rank

def nLocalRanks (s : CommStateX) (rank : ℤ) : Except Fault ℤ :=
  s.select NvlFabricRankState.nCliqueRanks NvlFabricRankState.nNvlDomainRanks
    RankState.nLocalRanks rank

def nNodes (s : CommStateX) : Except Fault ℤ := do
  s.checkTopoSet
  if s.nvlFabricEnabled_ then
    if s.nvlFabricCliqueEnabled_ then .ok s.cliqueRanks_.length
    else .ok s.nvlDomainRanks_.length
  else .ok s.hostToRanks_.entries.length

def localRankToRank (s : CommStateX) (localRank nodeId : ℤ) : Except Fault ℤ := do
  s.checkTopoSet
  if s.nvlFabricEnabled_ then
    if s.nvlFabricCliqueEnabled_ then
      if nodeId = -1 then do
        checkValidRank localRank s.myNvlFabricRankState_.cliqueRankToRank.length
        vectorAt s.myNvlFabricRankState_.cliqueRankToRank localRank
      else do
        let ranks ← vectorAt s.cliqueRanks_ nodeId
        vectorAt ranks localRank
    else if nodeId = -1 then do
      checkValidRank localRank s.myNvlFabricRankState_.nvlDomainRankToRank.length
      vectorAt s.myNvlFabricRankState_.nvlDomainRankToRank localRank
    else do
      let ranks ← vectorAt s.nvlDomainRanks_ nodeId
      vectorAt ranks localRank
  else if nodeId = -1 then do
    let state ← vectorAt s.rankStates_ s.rank_
    checkValidRank localRank state.localRankToRanks.length
    vectorAt state.localRankToRanks localRank
  else do
    let ranks ← vectorAt s.nodeRanks_ nodeId
    vectorAt ranks localRank

def host (s : CommStateX) (rank : ℤ) : Except Fault String := do
  let rank ← s.checkTopoAndSetRank rank
  let state ← vectorAt s.rankStates_ rank
  .ok state.host

def isSameNode (s : CommStateX) (myRank peer : ℤ) : Except Fault Bool := do
  let nodePeer ← s.node peer
  let nodeMy ← s.node myRank
  .ok (nodePeer == nodeMy)

end CommStateX
end TorchComms.CommState
