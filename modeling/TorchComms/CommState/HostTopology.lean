import TorchComms.CommState.CommStateX
import TorchComms.Foundation.Grouping
import TorchComms.Foundation.Loop

/-! # Nodes and local ranks by host

Where no NVL fabric is in use a node is a host. The node id of a rank is read off the number of
hosts known so far, so that nodes are hosts just when the ranks of each host are contiguous.
-/
namespace TorchComms.CommState.CommStateX

open Foundation Foundation.Grouping

/-- The accessors of the topology agree with each other and with the hosts. -/
structure Consistent (s : CommStateX) : Prop where
  sameNode : ∀ a < s.rankStates_.length, ∀ b < s.rankStates_.length, ∃ hostA hostB,
    s.host a = .ok hostA ∧ s.host b = .ok hostB ∧ s.isSameNode a b = .ok (decide (hostA = hostB))
  inverse : ∀ r < s.rankStates_.length, ∃ localRank node,
    s.localRank r = .ok localRank ∧ s.node r = .ok node ∧ s.localRankToRank localRank node = .ok r
  own : ∀ r < s.rankStates_.length, ∃ localRank,
    ({ s with rank_ := r } : CommStateX).localRank r = .ok localRank ∧
      ({ s with rank_ := r } : CommStateX).localRankToRank localRank (-1) = .ok r
  partition : s.nodeRanks_.flatten.Perm ((List.range s.rankStates_.length).map fun r : ℕ => (r : ℤ))
  nLocalRanks : ∀ r < s.rankStates_.length, ∃ node ranks, s.node r = .ok node ∧
    vectorAt s.nodeRanks_ node = .ok ranks ∧ s.nLocalRanks r = .ok ranks.length
  nodeIds : ∀ node : ℤ, (∃ r < s.rankStates_.length, s.node r = .ok node) ↔
    ∃ nNodes, s.nNodes = .ok nNodes ∧ 0 ≤ node ∧ node < nNodes

/-- The ranks of every host are contiguous. -/
def HostsContiguous (hosts : List String) : Prop :=
  ∀ k < hosts.length, ∀ j < k, ∀ i < j, hosts[i]? = hosts[k]? → hosts[j]? = hosts[i]?

instance (hosts : List String) : Decidable (HostsContiguous hosts) := by
  unfold HostsContiguous
  infer_instance

/-! ### The loops -/

variable {t : RankTopology} {host : String} {i : ℕ}

theorem vectorAt_nat {α : Type} {xs : List α} {x : α} (h : xs[i]? = some x) :
    vectorAt xs i = .ok x := by
  simp [vectorAt, h]

/-- What the first loop says about a rank. -/
structure Described (f : ℕ → Option String) (j : ℕ) (state : RankState) : Prop where
  rank : state.rank = j
  host : f j = some state.host
  nodeId : state.nodeId = ((keys f (j + 1)).length - 1 : ℕ)
  localRank : state.localRank = (members f j state.host).length

/-- The first loop, after `i` ranks. -/
structure HostsRead (f : ℕ → Option String) (i : ℕ) (s : CommStateX) : Prop where
  lookup : ∀ h, s.hostToRanks_.lookup h =
    if h ∈ keys f i then some ((members f i h).map fun r : ℕ => (r : ℤ)) else none
  count : s.hostToRanks_.entries.length = (keys f i).length
  length : s.rankStates_.length = i
  states : ∀ j state, s.rankStates_[j]? = some state → Described f j state

variable {env : Cvars}

theorem addRankTopology_eq (s : CommStateX) (hhost : env.host t = .ok host) {ranks : List ℤ}
    (hranks : (s.hostToRanks_.lookup host).getD [] ++ [t.rank] = ranks) :
    addRankTopology env s t = .ok { s with
      hostToRanks_ := s.hostToRanks_.insert host ranks
      rankStates_ := s.rankStates_ ++ [{
        rank := t.rank
        host := host
        rtsw := t.rtsw
        su := t.su
        dc := t.dataCenter
        zone := t.zone
        nodeId := (s.hostToRanks_.insert host ranks).entries.length - 1
        localRank := ranks.length - 1
        rackSerial := t.rackSerial }] } := by
  rw [addRankTopology, hhost, ← hranks]
  rfl

theorem HostsRead.add {f : ℕ → Option String} {s : CommStateX} (h : HostsRead f i s)
    (hhost : env.host t = .ok host) (hf : f i = some host) (hrank : t.rank = i) :
    ∃ s', addRankTopology env s t = .ok s' ∧ HostsRead f (i + 1) s' ∧
      s'.nvlFabricEnabled_ = s.nvlFabricEnabled_ := by
  have hranks : (s.hostToRanks_.lookup host).getD [] ++ [t.rank] =
      (members f i host).map (fun r : ℕ => (r : ℤ)) ++ [(i : ℤ)] := by
    rw [h.lookup host, hrank]
    by_cases hk : host ∈ keys f i
    · rw [if_pos hk]
      rfl
    · rw [if_neg hk, members_eq_nil hk]
      rfl
  have hmem : host ∈ s.hostToRanks_ ↔ host ∈ keys f i := by
    rw [← AList.lookup_isSome, h.lookup host]
    by_cases hk : host ∈ keys f i <;> simp [hk]
  have hkeys : (s.hostToRanks_.insert host ((members f i host).map (fun r : ℕ => (r : ℤ)) ++
      [(i : ℤ)])).entries.length = (keys f (i + 1)).length := by
    rw [length_insert, length_keys_succ hf, h.count]
    by_cases hk : host ∈ keys f i
    · rw [if_pos (hmem.mpr hk), if_pos hk, Nat.add_zero]
    · rw [if_neg (fun hin => hk (hmem.mp hin)), if_neg hk]
  have hpos := keys_pos hf
  refine ⟨_, addRankTopology_eq s hhost hranks, ?_, ?_⟩
  · exact
      { lookup := by
          intro k
          by_cases hk : k = host
          · subst hk
            rw [AList.lookup_insert, if_pos (mem_keys.mpr ⟨i, Nat.lt_succ_self i, hf⟩),
              members_succ_same hf, List.map_append]
            rfl
          · have hne : f i ≠ some k := by
              rw [hf]
              exact fun heq => hk (Option.some.inj heq).symm
            have hiff : k ∈ keys f (i + 1) ↔ k ∈ keys f i := by
              rw [mem_keys, mem_keys]
              constructor
              · rintro ⟨j, hj, hjk⟩
                rcases Nat.lt_succ_iff_lt_or_eq.mp hj with hlt | rfl
                · exact ⟨j, hlt, hjk⟩
                · exact absurd hjk hne
              · rintro ⟨j, hj, hjk⟩
                exact ⟨j, Nat.lt_succ_of_lt hj, hjk⟩
            rw [AList.lookup_insert_ne hk, h.lookup k, members_succ_ne hne]
            simp only [hiff]
        count := hkeys
        length := by rw [List.length_append, h.length, List.length_singleton]
        states := by
          intro j state hj
          rcases getElem?_concat_cases hj with hj | ⟨hji, rfl⟩
          · exact h.states j state hj
          · rw [h.length] at hji
            subst hji
            exact
              { rank := hrank
                host := hf
                nodeId := by
                  simp only [hkeys]
                  omega
                localRank := by simp } }
  · rfl

/-- The groups of the ranks by node id. -/
def byNode (f : ℕ → Option String) (j : ℕ) : Option ℕ := some ((keys f (j + 1)).length - 1)

/-- The second loop, after `i` ranks. -/
def NodesRead (f : ℕ → Option String) (n i : ℕ) (nodeRanks : List (List ℤ)) : Prop :=
  nodeRanks.length = (keys f n).length ∧ ∀ m < (keys f n).length,
    nodeRanks[m]? = some ((members (byNode f) i m).map fun r : ℕ => (r : ℤ))

theorem NodesRead.add {f : ℕ → Option String} {n i : ℕ} {nodeRanks : List (List ℤ)}
    (h : NodesRead f n i nodeRanks) {state : RankState} (hstate : Described f i state)
    (hi : i < n) :
    ∃ nodeRanks', addNodeRank nodeRanks state = .ok nodeRanks' ∧
      NodesRead f n (i + 1) nodeRanks' := by
  have hpos := keys_pos hstate.host
  have hmono := length_keys_mono f (show i + 1 ≤ n from hi)
  generalize hm : (keys f (i + 1)).length - 1 = m at *
  have hnode : state.nodeId = (m : ℤ) := by
    rw [hstate.nodeId, hm]
  have hmlt : m < (keys f n).length := by omega
  have hby : byNode f i = some m := by rw [byNode, hm]
  refine ⟨_, if_pos (by rw [hnode, h.1]; omega), ?_, ?_⟩
  · rw [List.length_modify, h.1]
  · intro l hl
    rw [List.getElem?_modify, h.2 l hl, hnode, Int.toNat_natCast, hstate.rank]
    by_cases hml : m = l
    · subst hml
      rw [members_succ_same hby, List.map_append]
      simp
    · rw [members_succ_ne (by rw [hby]; exact fun heq => hml (Option.some.inj heq))]
      simp [hml]

/-- What is known of the topology once it is read. -/
structure Placed (f : ℕ → Option String) (n : ℕ) (s : CommStateX) : Prop where
  fabric : s.nvlFabricEnabled_ = false
  count : s.hostToRanks_.entries.length = (keys f n).length
  length : s.rankStates_.length = n
  nodeRanks : NodesRead f n n s.nodeRanks_
  states : ∀ j h, j < n → f j = some h → ∃ state, s.rankStates_[j]? = some state ∧
    state.host = h ∧ state.nodeId = ((keys f (j + 1)).length - 1 : ℕ) ∧
    state.localRank = (members f j h).length ∧ state.nLocalRanks = (members f n h).length ∧
    state.localRankToRanks = (members f n h).map fun r : ℕ => (r : ℤ)

theorem setRankStatesTopologies_spec {s : CommStateX}
    (hfabric : s.nvlFabricEnabled_ = false) {topos : List RankTopology}
    (hrank : ∀ (i : ℕ) t, topos[i]? = some t → t.rank = i) {hosts : List String}
    (hhosts : topos.mapM env.host = .ok hosts) :
    ∃ s', s.setRankStatesTopologies env topos = .ok s' ∧
      Placed (fun i => hosts[i]?) hosts.length s' := by
  have hlen : topos.length = hosts.length := (length_of_mapM hhosts).symm
  generalize hf : (fun i : ℕ => hosts[i]?) = f
  have hfi : ∀ i t, topos[i]? = some t → ∃ host, env.host t = .ok host ∧ f i = some host := by
    intro i t ht
    rcases getElem?_of_mapM hhosts i with ⟨hnone, _⟩ | ⟨x, y, hx, hy, hxy⟩
    · rw [hnone] at ht
      cases ht
    · rw [hx, Option.some.injEq] at ht
      subst ht
      exact ⟨y, hxy, by rw [← hf]; exact hy⟩
  have hfirst : ∀ (i : ℕ) (u : CommStateX) (x : RankTopology), topos[i]? = some x →
      HostsRead f i u ∧ u.nvlFabricEnabled_ = false →
      ∃ u', addRankTopology env u x = .ok u' ∧
        HostsRead f (i + 1) u' ∧ u'.nvlFabricEnabled_ = false := by
    rintro i u x hx ⟨hu, hfab⟩
    rcases hfi i x hx with ⟨host, hhost, hfhost⟩
    rcases hu.add hhost hfhost (hrank i x hx) with ⟨u', hok, hu', hsame⟩
    exact ⟨u', hok, hu', hsame.trans hfab⟩
  have hstart : HostsRead f 0 { s with
      rankStates_ := []
      nodeRanks_ := []
      hostToRanks_ := ∅
      rankTopologies_ := topos } := ⟨by simp [keys], rfl, rfl, by simp⟩
  rcases foldlM_invariant _ hfirst ⟨hstart, hfabric⟩ with ⟨t, ht, hread, hfab⟩
  rw [hlen] at hread
  generalize hosts.length = n at hread
  have hsecond : ∀ (i : ℕ) (nodeRanks : List (List ℤ)) (state : RankState),
      t.rankStates_[i]? = some state → NodesRead f n i nodeRanks →
      ∃ nodeRanks', addNodeRank nodeRanks state = .ok nodeRanks' ∧
        NodesRead f n (i + 1) nodeRanks' := by
    intro i nodeRanks state hstate hnodes
    have hi := (List.getElem?_eq_some_iff.mp hstate).1
    rw [hread.length] at hi
    exact hnodes.add (hread.states i state hstate) hi
  have hempty : NodesRead f n 0 (List.replicate t.hostToRanks_.entries.length []) := by
    refine ⟨by rw [List.length_replicate, hread.count], ?_⟩
    intro m hm
    rw [List.getElem?_replicate, if_pos (hread.count ▸ hm)]
    rfl
  rcases foldlM_invariant _ hsecond hempty with ⟨nodeRanks, hnodeRanks, hnodes⟩
  rw [hread.length] at hnodes
  have hlookup : ∀ state ∈ t.rankStates_, t.hostToRanks_.lookup state.host =
      some ((members f n state.host).map fun r : ℕ => (r : ℤ)) := by
    intro state hstate
    rcases List.getElem?_of_mem hstate with ⟨j, hj⟩
    have hjn := (List.getElem?_eq_some_iff.mp hj).1
    rw [hread.length] at hjn
    rw [hread.lookup, if_pos (mem_keys.mpr ⟨j, hjn, (hread.states j state hj).host⟩)]
  have hthird : t.rankStates_.mapM (setLocalRanks t.hostToRanks_) =
      .ok (t.rankStates_.map fun state => { state with
        localRankToRanks := (members f n state.host).map fun r : ℕ => (r : ℤ)
        nLocalRanks := ((members f n state.host).map fun r : ℕ => (r : ℤ)).length }) := by
    apply mapM_ok
    intro state hstate
    simp only [setLocalRanks, mapAt, hlookup state hstate, bind, Except.bind]
  refine ⟨{ t with
    nodeRanks_ := nodeRanks
    rankStates_ := t.rankStates_.map fun state => { state with
      localRankToRanks := (members f n state.host).map fun r : ℕ => (r : ℤ)
      nLocalRanks := ((members f n state.host).map fun r : ℕ => (r : ℤ)).length } }, ?_, ?_⟩
  · simp only [setRankStatesTopologies, ht, hnodeRanks, hthird, bind, Except.bind]
  · exact
      { fabric := hfab
        count := hread.count
        length := by rw [List.length_map, hread.length]
        nodeRanks := hnodes
        states := by
          intro j h hj hfj
          have hj' : j < t.rankStates_.length := by rw [hread.length]; exact hj
          have hstate := List.getElem?_eq_getElem hj'
          generalize t.rankStates_[j] = state at hstate
          have hdesc := hread.states j state hstate
          have hhost : state.host = h := Option.some.inj (hdesc.host.symm.trans hfj)
          refine ⟨_, by rw [List.getElem?_map, hstate]; rfl, ?_⟩
          exact ⟨hhost, hdesc.nodeId, by rw [← hhost]; exact hdesc.localRank,
            by simp [hhost], by simp [hhost]⟩ }

/-! ### The accessors -/

section Accessors

variable {f : ℕ → Option String} {n r : ℕ} {s : CommStateX} {state : RankState}

theorem checkTopoAndSetRank_nat (hr : r < s.rankStates_.length) :
    s.checkTopoAndSetRank r = .ok r := by
  have hpos : s.rankStates_.length > 0 := Nat.zero_lt_of_lt hr
  have hne : (r : ℤ) ≠ -1 := by omega
  have hvalid : (0 : ℤ) ≤ r ∧ (r : ℤ) < s.rankStates_.length := by omega
  simp only [checkTopoAndSetRank, checkTopoSet, checkValidRank, hpos, hne, hvalid, and_self, if_true,
    if_false, bind, Except.bind]

theorem select_of_hosts {α : Type} (clique domain : NvlFabricRankState → α) (host : RankState → α)
    (hfabric : s.nvlFabricEnabled_ = false) (hstate : s.rankStates_[r]? = some state) :
    s.select clique domain host r = .ok (host state) := by
  have hr := (List.getElem?_eq_some_iff.mp hstate).1
  simp only [select, checkTopoAndSetRank_nat hr, hfabric, vectorAt_nat hstate, Bool.false_eq_true,
    if_false, bind, Except.bind, Except.map]

theorem host_eq (hstate : s.rankStates_[r]? = some state) : s.host r = .ok state.host := by
  have hr := (List.getElem?_eq_some_iff.mp hstate).1
  simp only [CommStateX.host, checkTopoAndSetRank_nat hr, vectorAt_nat hstate, bind, Except.bind]

variable {x : ℤ}

theorem localRankToRank_of_hosts (hfabric : s.nvlFabricEnabled_ = false)
    (hpos : 0 < s.rankStates_.length) {localRank node : ℕ} {ranks : List ℤ}
    (hranks : s.nodeRanks_[node]? = some ranks) (hx : ranks[localRank]? = some x) :
    s.localRankToRank localRank node = .ok x := by
  have hne : (node : ℤ) ≠ -1 := by omega
  have hset : s.rankStates_.length > 0 := hpos
  simp only [localRankToRank, checkTopoSet, hset, hfabric, hne, vectorAt_nat hranks, vectorAt_nat hx,
    if_true, if_false, Bool.false_eq_true, bind, Except.bind]

theorem localRankToRank_own (hfabric : s.nvlFabricEnabled_ = false) (hrank : s.rank_ = r)
    (hstate : s.rankStates_[r]? = some state) {localRank : ℕ}
    (hx : state.localRankToRanks[localRank]? = some x) :
    s.localRankToRank localRank (-1) = .ok x := by
  have hpos : s.rankStates_.length > 0 :=
    Nat.zero_lt_of_lt (List.getElem?_eq_some_iff.mp hstate).1
  have hlt := (List.getElem?_eq_some_iff.mp hx).1
  have hvalid : (0 : ℤ) ≤ localRank ∧ (localRank : ℤ) < state.localRankToRanks.length := by omega
  simp only [localRankToRank, checkTopoSet, checkValidRank, hpos, hfabric, hrank,
    vectorAt_nat hstate, vectorAt_nat hx, hvalid, and_self, if_true, if_false, Bool.false_eq_true,
    bind, Except.bind]

theorem isSameNode_eq {a b x y : ℤ} (ha : s.node a = .ok x) (hb : s.node b = .ok y) :
    s.isSameNode a b = .ok (y == x) := by
  simp only [isSameNode, ha, hb, bind, Except.bind]

theorem Placed.accessors (h : Placed f n s) (hsome : ∀ i < n, (f i).isSome) (hr : r < n) :
    ∃ host state, f r = some host ∧ s.rankStates_[r]? = some state ∧ state.host = host ∧
      s.node r = .ok ((keys f (r + 1)).length - 1 : ℕ) ∧
      s.localRank r = .ok (members f r host).length ∧
      s.nLocalRanks r = .ok (members f n host).length ∧
      state.localRankToRanks = (members f n host).map fun r : ℕ => (r : ℤ) := by
  rcases Option.isSome_iff_exists.mp (hsome r hr) with ⟨host, hhost⟩
  rcases h.states r host hr hhost with ⟨state, hstate, hh, hnode, hlocal, hcount, hranks⟩
  refine ⟨host, state, hhost, hstate, hh, ?_, ?_, ?_, hranks⟩
  · rw [node, select_of_hosts _ _ _ h.fabric hstate, hnode]
  · rw [localRank, select_of_hosts _ _ _ h.fabric hstate, hlocal]
  · rw [CommStateX.nLocalRanks, select_of_hosts _ _ _ h.fabric hstate, hcount]

theorem keys_byNode (hsome : ∀ i < n, (f i).isSome) :
    keys (byNode f) n = List.range (keys f n).length := by
  induction n with
  | zero => rfl
  | succ n ih =>
    have hn := ih fun i hi => hsome i (Nat.lt_succ_of_lt hi)
    rcases Option.isSome_iff_exists.mp (hsome n (Nat.lt_succ_self n)) with ⟨k, hk⟩
    have hby : byNode f n = some ((keys f (n + 1)).length - 1) := rfl
    have hpos := keys_pos hk
    by_cases hold : k ∈ keys f n
    · have hlen : (keys f (n + 1)).length = (keys f n).length := by rw [keys_old hk hold]
      rw [keys_old hby, hn, hlen]
      rw [hn, List.mem_range]
      omega
    · have hlen : (keys f (n + 1)).length = (keys f n).length + 1 := by
        rw [keys_new hk hold, List.length_append, List.length_singleton]
      rw [keys_new hby, hn, hlen, List.range_succ]
      · rfl
      · rw [hn, List.mem_range]
        omega

section

variable (h : Placed f n s)
include h

theorem Placed.nodeRanks_eq :
    s.nodeRanks_ = (List.range (keys f n).length).map fun m =>
      (members (byNode f) n m).map fun r : ℕ => (r : ℤ) := by
  apply List.ext_getElem?
  intro m
  rw [List.getElem?_map]
  by_cases hm : m < (keys f n).length
  · rw [h.nodeRanks.2 m hm, List.getElem?_range hm]
    rfl
  · rw [List.getElem?_eq_none (by rw [h.nodeRanks.1]; omega),
      List.getElem?_eq_none (by rw [List.length_range]; omega)]
    rfl

theorem Placed.partition (hsome : ∀ i < n, (f i).isSome) :
    s.nodeRanks_.flatten.Perm ((List.range n).map fun r : ℕ => (r : ℤ)) := by
  have hperm := groups_perm (byNode f) n
  have hall : (List.range n).filter (fun i => (byNode f i).isSome) = List.range n := by
    apply List.filter_eq_self.mpr
    intro i _
    rfl
  rw [hall, keys_byNode hsome] at hperm
  have hmap := hperm.map fun r : ℕ => (r : ℤ)
  rw [List.map_flatMap] at hmap
  rw [h.nodeRanks_eq]
  exact hmap

theorem Placed.nNodes (hn : 0 < n) : s.nNodes = .ok ((keys f n).length : ℕ) := by
  have hpos : s.rankStates_.length > 0 := by
    rw [h.length]
    exact hn
  simp only [CommStateX.nNodes, checkTopoSet, hpos, h.fabric, h.count, if_true, Bool.false_eq_true,
    if_false, bind, Except.bind]

theorem Placed.consistent_iff (hsome : ∀ i < n, (f i).isSome) : Consistent s ↔ Contiguous f n := by
  rw [contiguous_iff hsome]
  constructor
  · intro hc a ha b hb
    have ha' : a < s.rankStates_.length := by rw [h.length]; exact ha
    have hb' : b < s.rankStates_.length := by rw [h.length]; exact hb
    rcases h.accessors hsome ha with ⟨hostA, stA, hfa, hsa, hha, hnodeA, _⟩
    rcases h.accessors hsome hb with ⟨hostB, stB, hfb, hsb, hhb, hnodeB, _⟩
    rcases hc.sameNode a ha' b hb' with ⟨x, y, hx, hy, hsame⟩
    rw [host_eq hsa, hha, Except.ok.injEq] at hx
    rw [host_eq hsb, hhb, Except.ok.injEq] at hy
    rw [isSameNode_eq hnodeA hnodeB, Except.ok.injEq, ← hx, ← hy] at hsame
    have hposA := keys_pos hfa
    have hposB := keys_pos hfb
    rw [hfa, hfb, Option.some.injEq, ← decide_eq_true_iff (p := hostA = hostB), ← hsame, beq_iff_eq]
    omega
  · intro hnodes
    have hby : ∀ a < n, ∀ b < n, byNode f a = byNode f b ↔ f a = f b := by
      intro a ha b hb
      rcases Option.isSome_iff_exists.mp (hsome a ha) with ⟨x, hx⟩
      rcases Option.isSome_iff_exists.mp (hsome b hb) with ⟨y, hy⟩
      have hposA := keys_pos hx
      have hposB := keys_pos hy
      rw [← hnodes a ha b hb, byNode, byNode, Option.some.injEq]
      omega
    have hmembers : ∀ r < n, ∀ host, f r = some host →
        members (byNode f) n ((keys f (r + 1)).length - 1) = members f n host := by
      intro r hr host hhost
      apply List.filter_congr
      intro i hi
      have hiff := hby i (List.mem_range.mp hi) r hr
      rw [hhost] at hiff
      exact decide_eq_decide.mpr hiff
    have hranks : ∀ r < n, ∀ host, f r = some host →
        s.nodeRanks_[(keys f (r + 1)).length - 1]? =
          some ((members f n host).map fun r : ℕ => (r : ℤ)) := by
      intro r hr host hhost
      have hpos := keys_pos hhost
      have hmono := length_keys_mono f (show r + 1 ≤ n from hr)
      rw [h.nodeRanks.2 _ (by omega), hmembers r hr host hhost]
    have hself : ∀ r < n, ∀ host, f r = some host →
        ((members f n host).map fun r : ℕ => (r : ℤ))[(members f r host).length]? = some (r : ℤ) := by
      intro r hr host hhost
      rw [List.getElem?_map, getElem?_members hhost hr]
      rfl
    exact
      { sameNode := by
          intro a ha b hb
          rw [h.length] at ha hb
          rcases h.accessors hsome ha with ⟨hostA, stA, hfa, hsa, hha, hnodeA, _⟩
          rcases h.accessors hsome hb with ⟨hostB, stB, hfb, hsb, hhb, hnodeB, _⟩
          refine ⟨hostA, hostB, by rw [host_eq hsa, hha], by rw [host_eq hsb, hhb], ?_⟩
          have hiff := hby a ha b hb
          rw [hfa, hfb, Option.some.injEq, byNode, byNode, Option.some.injEq] at hiff
          rw [isSameNode_eq hnodeA hnodeB, Except.ok.injEq, Bool.eq_iff_iff, beq_iff_eq,
            decide_eq_true_iff, ← hiff]
          omega
        inverse := by
          intro r hr
          rw [h.length] at hr
          rcases h.accessors hsome hr with ⟨host, st, hf, hs, hh, hnode, hlocal, _⟩
          refine ⟨_, _, hlocal, hnode, ?_⟩
          apply localRankToRank_of_hosts h.fabric _ (hranks r hr host hf) (hself r hr host hf)
          rw [h.length]
          exact Nat.zero_lt_of_lt hr
        own := by
          intro r hr
          rw [h.length] at hr
          have hown : Placed f n { s with rank_ := r } :=
            ⟨h.fabric, h.count, h.length, h.nodeRanks, h.states⟩
          rcases hown.accessors hsome hr with ⟨host, st, hf, hs, _, _, hlocal, _, hlist⟩
          refine ⟨_, hlocal, ?_⟩
          apply localRankToRank_own hown.fabric rfl hs
          rw [hlist]
          exact hself r hr host hf
        partition := by
          rw [h.length]
          exact h.partition hsome
        nLocalRanks := by
          intro r hr
          rw [h.length] at hr
          rcases h.accessors hsome hr with ⟨host, st, hf, hs, hh, hnode, _, hcount, _⟩
          refine ⟨_, _, hnode, vectorAt_nat (hranks r hr host hf), ?_⟩
          rw [hcount, List.length_map]
        nodeIds := by
          intro node
          rw [h.length]
          constructor
          · rintro ⟨r, hr, hnode⟩
            rcases h.accessors hsome hr with ⟨host, st, hf, hs, hh, hnode', _⟩
            rw [hnode', Except.ok.injEq] at hnode
            have hpos := keys_pos hf
            have hmono := length_keys_mono f (show r + 1 ≤ n from hr)
            exact ⟨_, h.nNodes (Nat.zero_lt_of_lt hr), by omega, by omega⟩
          · rintro ⟨nNodes, hcount, hnonneg, hlt⟩
            have hn : 0 < n := by
              by_contra hzero
              have hlen : ¬ s.rankStates_.length > 0 := by
                rw [h.length]
                exact hzero
              simp only [CommStateX.nNodes, checkTopoSet, hlen, if_false, bind, Except.bind] at hcount
              cases hcount
            rw [h.nNodes hn, Except.ok.injEq] at hcount
            have hmem : node.toNat ∈ keys (byNode f) n := by
              rw [keys_byNode hsome, List.mem_range]
              omega
            rcases mem_keys.mp hmem with ⟨r, hr, hby⟩
            rcases h.accessors hsome hr with ⟨host, st, hf, hs, hh, hnode', _⟩
            refine ⟨r, hr, ?_⟩
            rw [byNode, Option.some.injEq] at hby
            rw [hnode', hby, Except.ok.injEq]
            omega }

end

end Accessors

/-- The nodes and local ranks are consistent just when every host name can be formed and the ranks
of every host are contiguous. -/
theorem consistent_iff_hostsContiguous (env : Cvars) {s : CommStateX}
    (hfabric : s.nvlFabricEnabled_ = false) {topos : List RankTopology}
    (hrank : ∀ (i : ℕ) t, topos[i]? = some t → t.rank = i) :
    (∃ s', s.setRankStatesTopologies env topos = .ok s' ∧ Consistent s') ↔
      ∃ hosts, topos.mapM env.host = .ok hosts ∧ HostsContiguous hosts := by
  cases hhosts : topos.mapM env.host with
  | error e =>
    rcases exists_of_mapM_error hhosts with ⟨t, ht, hfail⟩
    have hstep : ∀ u, ∃ e, addRankTopology env u t = .error e := by
      intro u
      refine ⟨e, ?_⟩
      rw [addRankTopology, hfail]
      rfl
    rcases foldlM_error ht hstep { s with
      rankStates_ := []
      nodeRanks_ := []
      hostToRanks_ := ∅
      rankTopologies_ := topos } with ⟨e', he'⟩
    constructor
    · rintro ⟨s', hok, _⟩
      simp only [setRankStatesTopologies, he', bind, Except.bind] at hok
      cases hok
    · rintro ⟨hosts, hok, _⟩
      cases hok
  | ok hosts =>
    rcases setRankStatesTopologies_spec hfabric hrank hhosts with ⟨s', hok, hplaced⟩
    have hsome : ∀ i < hosts.length, (hosts[i]?).isSome := by
      intro i hi
      rw [List.getElem?_eq_getElem hi]
      rfl
    have hiff := hplaced.consistent_iff hsome
    constructor
    · rintro ⟨t, ht, hc⟩
      rw [hok, Except.ok.injEq] at ht
      subst ht
      exact ⟨hosts, rfl, hiff.mp hc⟩
    · rintro ⟨hosts', hsame, hc⟩
      rw [Except.ok.injEq] at hsame
      subst hsame
      exact ⟨s', hok, hiff.mpr hc⟩

/-- Two hosts of two ranks each. -/
theorem consistent_two_hosts :
    ∃ s', setRankStatesTopologies {} { rank_ := 0, nRanks_ := 4 }
        [⟨0, "a", "", "", "", "d", 0⟩, ⟨1, "a", "", "", "", "d", 0⟩,
          ⟨2, "b", "", "", "", "d", 0⟩, ⟨3, "b", "", "", "", "d", 0⟩] = .ok s' ∧
      Consistent s' := by
  apply (consistent_iff_hostsContiguous {} rfl ?_).mpr
  · exact ⟨["a", "a", "b", "b"], rfl, by decide⟩
  · intro i t ht
    rcases i with _ | _ | _ | _ | i <;> simp at ht <;> rw [← ht] <;> rfl

/-- Ranks 0 and 2 on one host, rank 1 on another: ranks 0 and 2 are not on the same node. -/
theorem not_consistent_of_interleaved :
    ¬ ∀ (env : Cvars) (s : CommStateX) (topos : List RankTopology), s.nvlFabricEnabled_ = false →
      (∀ (i : ℕ) t, topos[i]? = some t → t.rank = i) →
      (∃ hosts, topos.mapM env.host = .ok hosts) →
      ∃ s', s.setRankStatesTopologies env topos = .ok s' ∧ Consistent s' := by
  intro hall
  rcases hall {} { rank_ := 0, nRanks_ := 3 }
    [⟨0, "a", "", "", "", "d", 0⟩, ⟨1, "b", "", "", "", "d", 0⟩, ⟨2, "a", "", "", "", "d", 0⟩] rfl
    (by
      intro i t ht
      rcases i with _ | _ | _ | i <;> simp at ht <;> rw [← ht] <;> rfl)
    ⟨["a", "b", "a"], rfl⟩ with ⟨s', hok, hc⟩
  cases hok
  rcases hc.sameNode 0 (by decide) 2 (by decide) with ⟨hostA, hostB, hA, hB, hsame⟩
  cases hA
  cases hB
  exact absurd hsame (by decide)

end TorchComms.CommState.CommStateX
