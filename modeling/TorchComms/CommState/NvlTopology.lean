import TorchComms.CommState.HostTopology
import TorchComms.Foundation.Run

/-! # Nodes and local ranks by NVL fabric

Where the NVL fabric is in use a node is an NVL domain, or a clique. Cliques are told apart by the
clique id alone, and the lists of cliques of an earlier call are kept.
-/
namespace TorchComms.CommState.CommStateX

open Foundation Foundation.Grouping

/-! ### Groups -/

section Groups

variable {κ : Type} [DecidableEq κ] {f : ℕ → Option κ} {n : ℕ} {k : κ}
  {index : AList fun _ : κ => ℤ} {groups : List (List ℤ)}

/-- The lists of members of the groups. -/
def groupsOf (f : ℕ → Option κ) (n : ℕ) : List (List ℤ) :=
  (keys f n).map fun k => (members f n k).map fun r : ℕ => (r : ℤ)

/-- A map of ids to indices and the groups, after `n` ranks. -/
structure Indexed (f : ℕ → Option κ) (n : ℕ) (index : AList fun _ : κ => ℤ)
    (groups : List (List ℤ)) : Prop where
  lookup : ∀ (m : ℕ) k, (keys f n)[m]? = some k → index.lookup k = some (m : ℤ)
  mem : ∀ k, (index.lookup k).isSome ↔ k ∈ keys f n
  count : index.entries.length = (keys f n).length
  groups : groups = groupsOf f n

theorem indexed_zero (f : ℕ → Option κ) : Indexed f 0 ∅ [] where
  lookup := by simp [keys]
  mem := by simp [keys]
  count := rfl
  groups := rfl

theorem groupsOf_length (f : ℕ → Option κ) (n : ℕ) : (groupsOf f n).length = (keys f n).length :=
  List.length_map ..

variable {m : ℕ}

theorem getElem?_groupsOf (hm : (keys f n)[m]? = some k) :
    (groupsOf f n)[m]? = some ((members f n k).map fun r : ℕ => (r : ℤ)) := by
  rw [groupsOf, List.getElem?_map, hm]
  rfl

theorem Indexed.skip (h : Indexed f n index groups) (hf : f n = none) :
    Indexed f (n + 1) index groups := by
  have hgroups : groupsOf f (n + 1) = groupsOf f n := by
    rw [groupsOf, keys_none hf, groupsOf]
    apply List.map_congr_left
    intro k _
    rw [members_succ_ne (by rw [hf]; exact nofun)]
  exact
    { lookup := by
        rw [keys_none hf]
        exact h.lookup
      mem := by
        rw [keys_none hf]
        exact h.mem
      count := by
        rw [keys_none hf]
        exact h.count
      groups := by
        rw [hgroups]
        exact h.groups }

theorem groupsOf_old (hf : f n = some k) (hm : (keys f n)[m]? = some k) :
    groupsOf f (n + 1) = (groupsOf f n).modify m (· ++ [(n : ℤ)]) := by
  have hk : k ∈ keys f n := List.mem_of_getElem? hm
  apply List.ext_getElem?
  intro l
  rw [List.getElem?_modify, groupsOf, groupsOf, List.getElem?_map, List.getElem?_map,
    keys_old hf hk]
  cases hl : (keys f n)[l]? with
  | none => rfl
  | some j =>
    by_cases hml : m = l
    · subst hml
      rw [hm, Option.some.injEq] at hl
      subst hl
      simp [members_succ_same hf]
    · have hkj : f n ≠ some j := by
        rw [hf]
        intro heq
        rw [← Option.some.inj heq] at hl
        have hlt := (List.getElem?_eq_some_iff.mp hm).1
        exact hml ((List.getElem?_inj hlt (keys_nodup f n)).mp (hm.trans hl.symm))
      simp [members_succ_ne hkj, hml]

theorem groupsOf_new (hf : f n = some k) (hk : k ∉ keys f n) :
    groupsOf f (n + 1) = groupsOf f n ++ [[(n : ℤ)]] := by
  rw [groupsOf, keys_new hf hk, List.map_append, List.map_singleton, members_succ_same hf,
    members_eq_nil hk, groupsOf]
  congr 1
  apply List.map_congr_left
  intro j hj
  rw [members_succ_ne]
  intro heq
  rw [hf] at heq
  rw [Option.some.inj heq] at hk
  exact hk hj

theorem joinGroup_old (h : Indexed f n index groups) (hf : f n = some k)
    (hm : (keys f n)[m]? = some k) :
    joinGroup index groups k n =
      .ok (m, (members f n k).length, index, groupsOf f (n + 1)) := by
  have hlookup := h.lookup m k hm
  have hgroup := getElem?_groupsOf hm
  have hlt := (List.getElem?_eq_some_iff.mp hgroup).1
  have hbounds : (0 : ℤ) ≤ m ∧ (m : ℤ) < (groupsOf f n).length := by omega
  simp only [joinGroup, hlookup, Option.isSome_some, if_true, mapAt, bind, Except.bind, h.groups,
    vectorAt_nat hgroup, emplaceBackAt, hbounds, and_self, Int.toNat_natCast, List.length_map,
    groupsOf_old hf hm]

theorem joinGroup_new (h : Indexed f n index groups) (hf : f n = some k) (hk : k ∉ keys f n) :
    joinGroup index groups k n = .ok ((keys f n).length, (members f n k).length,
      index.insert k (keys f n).length, groupsOf f (n + 1)) := by
  have hlookup : (index.lookup k).isSome = false := by
    rw [Bool.eq_false_iff]
    exact fun hin => hk ((h.mem k).mp hin)
  have hlen := groupsOf_length f n
  have hlast : (groupsOf f n ++ [[]])[(keys f n).length]? = some [] := by
    rw [List.getElem?_append_right (by omega), hlen, Nat.sub_self]
    rfl
  have hbounds : (0 : ℤ) ≤ ((keys f n).length : ℕ) ∧
      (((keys f n).length : ℕ) : ℤ) < (groupsOf f n ++ [([] : List ℤ)]).length := by
    rw [List.length_append, List.length_singleton]
    omega
  have hmodify : (groupsOf f n ++ [([] : List ℤ)]).modify (keys f n).length (· ++ [(n : ℤ)]) =
      groupsOf f n ++ [[(n : ℤ)]] := by
    rw [← hlen, List.modify_eq_take_drop, List.take_left, List.drop_left]
    rfl
  simp only [joinGroup, hlookup, Bool.false_eq_true, if_false, mapAt, AList.lookup_insert, bind,
    Except.bind, h.groups, hlen, vectorAt_nat hlast, emplaceBackAt, hbounds, and_self, if_true,
    Int.toNat_natCast, hmodify, groupsOf_new hf hk, members_eq_nil hk, List.length_nil]

theorem Indexed.join {i : ℕ} (h : Indexed f i index groups) (hf : f i = some k) :
    ∃ m index', (keys f (i + 1))[m]? = some k ∧
      joinGroup index groups k i = .ok ((m : ℕ), (members f i k).length, index', groupsOf f (i + 1)) ∧
      Indexed f (i + 1) index' (groupsOf f (i + 1)) := by
  by_cases hk : k ∈ keys f i
  · rcases List.getElem?_of_mem hk with ⟨m, hm⟩
    have hkeys := keys_old hf hk
    refine ⟨m, index, by rw [hkeys]; exact hm, joinGroup_old h hf hm, ?_⟩
    exact
      { lookup := by
          rw [hkeys]
          exact h.lookup
        mem := by
          rw [hkeys]
          exact h.mem
        count := by
          rw [hkeys]
          exact h.count
        groups := rfl }
  · have hkeys := keys_new hf hk
    have hnot : k ∉ index := by
      rw [← AList.lookup_isSome]
      exact fun hin => hk ((h.mem k).mp hin)
    refine ⟨(keys f i).length, _, ?_, joinGroup_new h hf hk, ?_⟩
    · rw [hkeys, List.getElem?_append_right (Nat.le_refl _), Nat.sub_self]
      rfl
    · exact
        { lookup := by
            intro m j hm
            rw [hkeys] at hm
            by_cases hjk : j = k
            · subst hjk
              rw [AList.lookup_insert]
              have hlt := (List.getElem?_eq_some_iff.mp hm).1
              have hnodup := keys_nodup f (i + 1)
              rw [hkeys] at hnodup
              have hlast : (keys f i ++ [j])[(keys f i).length]? = some j := by
                rw [List.getElem?_append_right (Nat.le_refl _), Nat.sub_self]
                rfl
              rw [(List.getElem?_inj hlt hnodup).mp (hm.trans hlast.symm)]
            · rw [AList.lookup_insert_ne hjk]
              apply h.lookup m j
              rcases Nat.lt_or_ge m (keys f i).length with hlt | hge
              · rw [List.getElem?_append_left hlt] at hm
                exact hm
              · rw [List.getElem?_append_right hge, List.getElem?_singleton] at hm
                split at hm
                · exact absurd (Option.some.inj hm).symm hjk
                · cases hm
          mem := by
            intro j
            rw [hkeys, List.mem_append, List.mem_singleton, ← h.mem j]
            by_cases hjk : j = k
            · subst hjk
              simp [AList.lookup_insert]
            · simp [AList.lookup_insert_ne hjk, hjk]
          count := by
            rw [length_insert, if_neg hnot, h.count, hkeys, List.length_append,
              List.length_singleton]
          groups := rfl }

theorem length_of_joinGroup {d : ℕ} (hlen : groups.length = index.entries.length + d) {id : κ}
    {rank i l : ℤ} {index' : AList fun _ : κ => ℤ} {groups' : List (List ℤ)}
    (hok : joinGroup index groups id rank = .ok (i, l, index', groups')) :
    groups'.length = index'.entries.length + d := by
  have hplace : ∀ (index : AList fun _ : κ => ℤ) (groups : List (List ℤ)),
      (do
        let i ← mapAt index id
        let group ← vectorAt groups i
        let groups ← emplaceBackAt groups i rank
        .ok (i, (group.length : ℤ), index, groups) : Except Fault _) = .ok (i, l, index', groups') →
      index' = index ∧ groups'.length = groups.length := by
    intro index groups hok
    cases hmap : mapAt index id with
    | error e =>
      rw [hmap] at hok
      cases hok
    | ok j =>
      rw [hmap] at hok
      cases hgroup : vectorAt groups j with
      | error e =>
        simp only [hgroup, bind, Except.bind] at hok
        cases hok
      | ok group =>
        simp only [hgroup, bind, Except.bind, emplaceBackAt] at hok
        split at hok
        · cases hok
        · rename_i hplaced
          split at hplaced
          · cases hplaced
            cases hok
            exact ⟨rfl, List.length_modify ..⟩
          · cases hplaced
  cases hlookup : (index.lookup id).isSome with
  | true =>
    simp only [joinGroup, hlookup, if_true] at hok
    rcases hplace _ _ hok with ⟨rfl, hsame⟩
    rw [hsame, hlen]
  | false =>
    simp only [joinGroup, hlookup, Bool.false_eq_true, if_false] at hok
    rcases hplace _ _ hok with ⟨rfl, hsame⟩
    have hnot : id ∉ index := by
      rw [← AList.lookup_isSome, hlookup]
      exact Bool.false_ne_true
    rw [hsame, List.length_append, List.length_singleton, length_insert, if_neg hnot, hlen]
    omega

end Groups

/-! ### The loops -/

variable {on : Bool} {topos : List NvlFabricTopology} {n : ℕ}

/-- The NVL domain of a rank, of those that support the fabric. -/
def domainOf (topos : List NvlFabricTopology) (i : ℕ) : Option String :=
  (topos[i]?).bind fun t => if t.supportNvlFabric then some t.clusterId else none

def cliqueOf (topos : List NvlFabricTopology) (i : ℕ) : Option ℤ :=
  (topos[i]?).bind fun t => if t.supportNvlFabric then some t.cliqueId else none

/-- The index and the rank that the first loop gives a rank of the communicator. -/
def Joining {κ : Type} [DecidableEq κ] (f : ℕ → Option κ) (j : ℕ) (index rank : ℤ) : Prop :=
  (f j = none → index = -1) ∧ ∀ k, f j = some k →
    ∃ m : ℕ, (keys f (j + 1))[m]? = some k ∧ index = m ∧ rank = (members f j k).length

/-- The first loop, after `i` ranks. -/
structure TablesRead (on : Bool) (topos : List NvlFabricTopology) (i : ℕ) (t : NvlTables) : Prop where
  domains : Indexed (domainOf topos) i t.clusterIdToNvlDomainIndex t.nvlDomainRanks_
  cliques : if on then Indexed (cliqueOf topos) i t.cliqueIdToCliqueIndex t.cliqueRanks_
    else t.cliqueIdToCliqueIndex = ∅ ∧ t.cliqueRanks_ = []
  length : t.nvlFabricRankStates_.length = i
  states : ∀ j state, t.nvlFabricRankStates_[j]? = some state →
    Joining (domainOf topos) j state.nvlDomainIndex state.nvlDomainRank ∧
    if on then Joining (cliqueOf topos) j state.cliqueIndex state.cliqueRank
    else state.cliqueIndex = -1

variable {topo : NvlFabricTopology} {t : NvlFabricTopology} {α : Type} {j : ℕ} {i : ℤ}

theorem TablesRead.add {i : ℕ} {t : NvlTables} (h : TablesRead on topos i t)
    (htopo : topos[i]? = some topo) :
    ∃ t', addNvlFabricTopology on t topo = .ok t' ∧ TablesRead on topos (i + 1) t' := by
  have hlength : ∀ state, (t.nvlFabricRankStates_ ++ [state]).length = i + 1 := by
    intro state
    rw [List.length_append, h.length, List.length_singleton]
  have hstates : ∀ new : NvlFabricRankState,
      (Joining (domainOf topos) i new.nvlDomainIndex new.nvlDomainRank ∧
        if on then Joining (cliqueOf topos) i new.cliqueIndex new.cliqueRank
        else new.cliqueIndex = -1) →
      ∀ (j : ℕ) state, (t.nvlFabricRankStates_ ++ [new])[j]? = some state →
        Joining (domainOf topos) j state.nvlDomainIndex state.nvlDomainRank ∧
          if on then Joining (cliqueOf topos) j state.cliqueIndex state.cliqueRank
          else state.cliqueIndex = -1 := by
    intro new hnew j state hj
    rcases getElem?_concat_cases hj with hj | ⟨rfl, rfl⟩
    · exact h.states j state hj
    · rw [h.length]
      exact hnew
  cases hsupport : topo.supportNvlFabric with
  | false =>
    have hdom : domainOf topos i = none := by simp [domainOf, htopo, hsupport]
    have hclq : cliqueOf topos i = none := by simp [cliqueOf, htopo, hsupport]
    refine ⟨{ t with nvlFabricRankStates_ := t.nvlFabricRankStates_ ++ [{ rank := i }] }, ?_, ?_⟩
    · simp only [addNvlFabricTopology, hsupport, Bool.false_eq_true, if_false, h.length]
    · exact
        { domains := h.domains.skip hdom
          cliques := by
            cases on with
            | true => exact Indexed.skip h.cliques hclq
            | false => exact h.cliques
          length := hlength _
          states := by
            apply hstates
            refine ⟨⟨fun _ => rfl, by simp [hdom]⟩, ?_⟩
            cases on with
            | true => exact ⟨fun _ => rfl, by simp [hclq]⟩
            | false => rfl }
  | true =>
    have hdom : domainOf topos i = some topo.clusterId := by simp [domainOf, htopo, hsupport]
    have hclq : cliqueOf topos i = some topo.cliqueId := by simp [cliqueOf, htopo, hsupport]
    rcases h.domains.join hdom with ⟨m, clusters, hm, hjoin, hdomains⟩
    have hjoining : Joining (domainOf topos) i m (members (domainOf topos) i topo.clusterId).length :=
      ⟨by simp [hdom], by
        intro k hk
        rw [hdom, Option.some.injEq] at hk
        subst hk
        exact ⟨m, hm, rfl, rfl⟩⟩
    cases on with
    | false =>
      refine ⟨⟨groupsOf (domainOf topos) (i + 1), t.cliqueRanks_, t.nvlFabricRankStates_ ++ [{
        rank := i
        nvlDomainIndex := m
        clusterId := topo.clusterId
        nvlDomainRank := (members (domainOf topos) i topo.clusterId).length }],
        clusters, t.cliqueIdToCliqueIndex⟩, ?_, ?_⟩
      · simp only [addNvlFabricTopology, hsupport, if_true, h.length, hjoin, bind, Except.bind,
          Bool.false_eq_true, if_false]
      · exact
          { domains := hdomains
            cliques := h.cliques
            length := hlength _
            states := hstates _ ⟨hjoining, rfl⟩ }
    | true =>
      rcases Indexed.join h.cliques hclq with ⟨l, cliques, hl, hjoin', hcliques⟩
      refine ⟨⟨groupsOf (domainOf topos) (i + 1), groupsOf (cliqueOf topos) (i + 1),
        t.nvlFabricRankStates_ ++ [{
          rank := i
          nvlDomainIndex := m
          clusterId := topo.clusterId
          nvlDomainRank := (members (domainOf topos) i topo.clusterId).length
          cliqueIndex := l
          cliqueRank := (members (cliqueOf topos) i topo.cliqueId).length
          cliqueId := topo.cliqueId.bmod (2 ^ 32) }], clusters, cliques⟩, ?_, ?_⟩
      · simp only [addNvlFabricTopology, hsupport, if_true, h.length, hjoin, hjoin', bind,
          Except.bind]
      · exact
          { domains := hdomains
            cliques := hcliques
            length := hlength _
            states := by
              apply hstates
              refine ⟨hjoining, by simp [hclq], ?_⟩
              intro k hk
              rw [hclq, Option.some.injEq] at hk
              subst hk
              exact ⟨l, hl, rfl, rfl⟩ }

/-- What the second loop makes of an index and a rank. -/
def Joined {κ : Type} [DecidableEq κ] (f : ℕ → Option κ) (n j : ℕ) (index rank count : ℤ)
    (ranks : List ℤ) : Prop :=
  (f j = none → index = -1) ∧ ∀ k, f j = some k → ∃ m : ℕ, (keys f n)[m]? = some k ∧ index = m ∧
    rank = (members f j k).length ∧ count = (members f n k).length ∧
    ranks = (members f n k).map fun r : ℕ => (r : ℤ)

theorem Joining.joined {κ : Type} [DecidableEq κ] {f : ℕ → Option κ} {index rank : ℤ}
    (h : Joining f j index rank) (hj : j < n) {k : κ} (hk : f j = some k) :
    ∃ ranks, vectorAt (groupsOf f n) index = .ok ranks ∧
      Joined f n j index rank ranks.length ranks := by
  rcases h.2 k hk with ⟨m, hm, rfl, hrank⟩
  rcases prefix_keys f (show j + 1 ≤ n from hj) with ⟨t, ht⟩
  have hkeys : (keys f n)[m]? = some k := by
    rw [← ht, List.getElem?_append_left (List.getElem?_eq_some_iff.mp hm).1, hm]
  refine ⟨_, vectorAt_nat (getElem?_groupsOf hkeys), by simp [hk], ?_⟩
  intro l hl
  rw [hk, Option.some.injEq] at hl
  subst hl
  exact ⟨m, hkeys, rfl, hrank, by rw [List.length_map], rfl⟩

/-- The tables that a call fills. -/
structure Tables (on : Bool) (topos : List NvlFabricTopology) (t : NvlTables) : Prop where
  domains : t.nvlDomainRanks_ = groupsOf (domainOf topos) topos.length
  cliques : t.cliqueRanks_ = if on then groupsOf (cliqueOf topos) topos.length else []
  length : t.nvlFabricRankStates_.length = topos.length
  states : ∀ j state, t.nvlFabricRankStates_[j]? = some state →
    Joined (domainOf topos) topos.length j state.nvlDomainIndex state.nvlDomainRank
      state.nNvlDomainRanks state.nvlDomainRankToRank ∧
    (on = true → Joined (cliqueOf topos) topos.length j state.cliqueIndex state.cliqueRank
      state.nCliqueRanks state.cliqueRankToRank)

variable {state : NvlFabricRankState}

theorem TablesRead.setNvlGroup {t : NvlTables} (h : TablesRead on topos topos.length t)
    (htopo : topos[j]? = some topo) (hstate : t.nvlFabricRankStates_[j]? = some state) :
    ∃ state', CommStateX.setNvlGroup on t (topo, state) = .ok state' ∧
      Joined (domainOf topos) topos.length j state'.nvlDomainIndex state'.nvlDomainRank
        state'.nNvlDomainRanks state'.nvlDomainRankToRank ∧
      (on = true → Joined (cliqueOf topos) topos.length j state'.cliqueIndex state'.cliqueRank
        state'.nCliqueRanks state'.cliqueRankToRank) := by
  have hj := (List.getElem?_eq_some_iff.mp htopo).1
  rcases h.states j state hstate with ⟨hdomain, hclique⟩
  cases hsupport : topo.supportNvlFabric with
  | false =>
    have hdom : domainOf topos j = none := by simp [domainOf, htopo, hsupport]
    have hclq : cliqueOf topos j = none := by simp [cliqueOf, htopo, hsupport]
    refine ⟨state, ?_, ⟨hdomain.1, by simp [hdom]⟩, ?_⟩
    · simp only [CommStateX.setNvlGroup, hsupport, Bool.false_eq_true, if_false]
    · rintro rfl
      exact ⟨hclique.1, by simp [hclq]⟩
  | true =>
    have hdom : domainOf topos j = some topo.clusterId := by simp [domainOf, htopo, hsupport]
    have hclq : cliqueOf topos j = some topo.cliqueId := by simp [cliqueOf, htopo, hsupport]
    rcases hdomain.joined hj hdom with ⟨domain, hat, hjoined⟩
    rw [← h.domains.groups] at hat
    cases on with
    | false =>
      refine ⟨{ state with
        nNvlDomainRanks := domain.length
        nvlDomainRankToRank := domain }, ?_, hjoined, by simp⟩
      simp only [CommStateX.setNvlGroup, hsupport, if_true, hat, bind, Except.bind,
        Bool.false_eq_true, if_false]
    | true =>
      rcases Joining.joined hclique hj hclq with ⟨clique, hat', hjoined'⟩
      rw [← Indexed.groups h.cliques] at hat'
      refine ⟨{ state with
        nNvlDomainRanks := domain.length
        nvlDomainRankToRank := domain
        nCliqueRanks := clique.length
        cliqueRankToRank := clique }, ?_, hjoined, fun _ => hjoined'⟩
      simp only [CommStateX.setNvlGroup, hsupport, if_true, hat, hat', bind, Except.bind]

theorem nvlTables_spec (on : Bool) (topos : List NvlFabricTopology) :
    ∃ t, nvlTables on [] topos = .ok t ∧ Tables on topos t := by
  have hstart : TablesRead on topos 0 { cliqueRanks_ := [] } :=
    { domains := indexed_zero _
      cliques := by
        cases on with
        | true => exact indexed_zero _
        | false => exact ⟨rfl, rfl⟩
      length := rfl
      states := by simp }
  rcases foldlM_invariant (TablesRead on topos) (fun i t topo htopo ht => ht.add htopo) hstart with
    ⟨t, hloop, ht⟩
  have hgroup : ∀ r ∈ topos.zip t.nvlFabricRankStates_, ∃ state', setNvlGroup on t r = .ok state' := by
    intro r hr
    rcases List.getElem?_of_mem hr with ⟨j, hj⟩
    rw [List.getElem?_zip_eq_some] at hj
    rcases ht.setNvlGroup hj.1 hj.2 with ⟨state', hok, _⟩
    exact ⟨state', hok⟩
  cases hstates : (topos.zip t.nvlFabricRankStates_).mapM (setNvlGroup on t) with
  | error e =>
    rcases exists_of_mapM_error hstates with ⟨r, hr, hfail⟩
    rcases hgroup r hr with ⟨state', hok⟩
    rw [hfail] at hok
    cases hok
  | ok states =>
    have hcount : t.clusterIdToNvlDomainIndex.entries.length = t.nvlDomainRanks_.length := by
      rw [ht.domains.count, ht.domains.groups, groupsOf_length]
    have hcount' : t.cliqueIdToCliqueIndex.entries.length = t.cliqueRanks_.length := by
      have hcliques := ht.cliques
      cases on with
      | true =>
        rw [Indexed.count hcliques, Indexed.groups hcliques, groupsOf_length]
      | false =>
        rw [hcliques.1, hcliques.2]
        rfl
    have hget := getElem?_of_mapM hstates
    have hlen : states.length = topos.length := by
      have hzip : (topos.zip t.nvlFabricRankStates_).length = topos.length := by
        rw [List.length_zip, ht.length, Nat.min_self]
      rw [← hzip]
      exact length_of_mapM hstates
    refine ⟨{ t with nvlFabricRankStates_ := states }, ?_, ?_⟩
    · simp only [nvlTables, hloop, hstates, hcount, hcount', ne_eq, not_true_eq_false, if_false,
        bind, Except.bind]
    · exact
        { domains := ht.domains.groups
          cliques := by
            have hcliques := ht.cliques
            cases on with
            | true => exact Indexed.groups hcliques
            | false => exact hcliques.2
          length := hlen
          states := by
            intro j state hj
            rcases hget j with ⟨_, hnone⟩ | ⟨r, y, hr, hy, hok⟩
            · simp only [hnone] at hj
              cases hj
            · rw [List.getElem?_zip_eq_some] at hr
              rcases ht.setNvlGroup hr.1 hr.2 with ⟨state', hok', hjoined⟩
              simp only [hy, Option.some.injEq] at hj
              have heq : y = state' := Except.ok.inj (hok.symm.trans hok')
              rw [← hj, heq]
              exact hjoined }

theorem nvlTables_stale (on : Bool) {cliqueRanks : List (List ℤ)} (hne : cliqueRanks ≠ [])
    (topos : List NvlFabricTopology) : ∃ e, nvlTables on cliqueRanks topos = .error e := by
  have hstep : ∀ t topo t', addNvlFabricTopology on t topo = .ok t' →
      t.cliqueRanks_.length = t.cliqueIdToCliqueIndex.entries.length + cliqueRanks.length →
      t'.cliqueRanks_.length = t'.cliqueIdToCliqueIndex.entries.length + cliqueRanks.length := by
    intro t topo t' hok ht
    cases hsupport : topo.supportNvlFabric with
    | false =>
      simp only [addNvlFabricTopology, hsupport, Bool.false_eq_true, if_false, Except.ok.injEq] at hok
      rw [← hok]
      exact ht
    | true =>
      simp only [addNvlFabricTopology, hsupport, if_true, bind, Except.bind] at hok
      split at hok
      · cases hok
      · cases on with
        | false =>
          simp only [Bool.false_eq_true, if_false, Except.ok.injEq] at hok
          rw [← hok]
          exact ht
        | true =>
          simp only [if_true] at hok
          split at hok
          · cases hok
          · rename_i hjoin
            cases hok
            exact length_of_joinGroup ht hjoin
  cases hloop : topos.foldlM (addNvlFabricTopology on) { cliqueRanks_ := cliqueRanks } with
  | error e => exact ⟨e, by simp only [nvlTables, hloop, bind, Except.bind]⟩
  | ok t =>
    have ht := foldlM_of_ok _ hstep (Nat.zero_add _).symm hloop
    have hpos := List.length_pos_of_ne_nil hne
    have hcount : ¬ t.cliqueIdToCliqueIndex.entries.length = t.cliqueRanks_.length := by omega
    cases hstates : (topos.zip t.nvlFabricRankStates_).mapM (setNvlGroup on t) with
    | error e => exact ⟨e, by simp only [nvlTables, hloop, hstates, bind, Except.bind]⟩
    | ok states =>
      simp only [nvlTables, hloop, hstates, bind, Except.bind, ne_eq, hcount, not_false_eq_true,
        if_true]
      split
      · exact ⟨_, rfl⟩
      · exact ⟨_, rfl⟩

/-! ### The accessors -/

/-- The lists of ranks by node. -/
def nodeLists (s : CommStateX) : List (List ℤ) :=
  if s.nvlFabricCliqueEnabled_ then s.cliqueRanks_ else s.nvlDomainRanks_

/-- The ranks that support the fabric. -/
def supporting (topos : List NvlFabricTopology) : List ℤ :=
  ((List.range topos.length).filter fun i => (topos[i]?).any NvlFabricTopology.supportNvlFabric).map
    fun r : ℕ => (r : ℤ)

/-- The accessors agree with each other and with the fabric. -/
structure NvlConsistent (topos : List NvlFabricTopology) (s : CommStateX) : Prop where
  cluster : ∀ (a b : ℕ) ta tb, topos[a]? = some ta → topos[b]? = some tb →
    ta.supportNvlFabric = true → tb.supportNvlFabric = true → s.node a = s.node b →
    ta.clusterId = tb.clusterId
  separate : ∀ (a b : ℕ) ta tb, topos[a]? = some ta → topos[b]? = some tb →
    ta.supportNvlFabric = true → tb.supportNvlFabric = false →
    ∃ nodeA nodeB, s.node a = .ok nodeA ∧ s.node b = .ok nodeB ∧ nodeA ≠ nodeB
  inverse : ∀ (r : ℕ) t, topos[r]? = some t → t.supportNvlFabric = true →
    ∃ localRank node, s.localRank r = .ok localRank ∧ s.node r = .ok node ∧
      s.localRankToRank localRank node = .ok r
  partition : s.nodeLists.flatten.Perm (supporting topos)
  domains : s.nvlDomainRanks_.flatten.Perm (supporting topos)
  nLocalRanks : ∀ (r : ℕ) t, topos[r]? = some t → t.supportNvlFabric = true →
    ∃ node ranks, s.node r = .ok node ∧ vectorAt s.nodeLists node = .ok ranks ∧
      s.nLocalRanks r = .ok ranks.length

/-- The state after a call that puts the fabric into use. -/
structure InFabric (on : Bool) (topos : List NvlFabricTopology) (s : CommStateX) : Prop where
  enabled : s.nvlFabricEnabled_ = true
  cliqueEnabled : s.nvlFabricCliqueEnabled_ = on
  ranks : s.rankStates_.length = topos.length
  my : vectorAt s.nvlFabricRankStates_ s.rank_ = .ok s.myNvlFabricRankState_
  domains : s.nvlDomainRanks_ = groupsOf (domainOf topos) topos.length
  cliques : on = true → s.cliqueRanks_ = groupsOf (cliqueOf topos) topos.length
  length : s.nvlFabricRankStates_.length = topos.length
  states : ∀ j state, s.nvlFabricRankStates_[j]? = some state →
    Joined (domainOf topos) topos.length j state.nvlDomainIndex state.nvlDomainRank
      state.nNvlDomainRanks state.nvlDomainRankToRank ∧
    (on = true → Joined (cliqueOf topos) topos.length j state.cliqueIndex state.cliqueRank
      state.nCliqueRanks state.cliqueRankToRank)

/-- The accessors read the groups of `f`. -/
structure Grouped {κ : Type} [DecidableEq κ] (f : ℕ → Option κ) (n : ℕ) (s : CommStateX) : Prop where
  lists : s.nodeLists = groupsOf f n
  accessors : ∀ r < n, ∃ index rank count ranks, s.node r = .ok index ∧
    s.localRank r = .ok rank ∧ s.nLocalRanks r = .ok count ∧ Joined f n r index rank count ranks
  toRank : ∀ (m l : ℕ) ranks x, s.nodeLists[m]? = some ranks → ranks[l]? = some x →
    s.localRankToRank l m = .ok x

variable {s : CommStateX} {r : ℕ}

section

variable (h : InFabric on topos s)
include h

theorem InFabric.nvlState
    (hstate : s.nvlFabricRankStates_[r]? = some state) : s.nvlState r = .ok state := by
  have hat := vectorAt_nat hstate
  by_cases hr : (r : ℤ) = s.rank_
  · rw [CommStateX.nvlState, if_pos hr, ← hat, hr, h.my]
  · rw [CommStateX.nvlState, if_neg hr, hat]

theorem InFabric.select (clique domain : NvlFabricRankState → α) (host : RankState → α)
    (hstate : s.nvlFabricRankStates_[r]? = some state) :
    s.select clique domain host r = .ok (if on then clique state else domain state) := by
  have hr : r < s.rankStates_.length := by
    rw [h.ranks, ← h.length]
    exact (List.getElem?_eq_some_iff.mp hstate).1
  simp only [CommStateX.select, checkTopoAndSetRank_nat hr, h.enabled, if_true, h.cliqueEnabled,
    h.nvlState hstate, bind, Except.bind, Except.map]
  cases on <;> rfl

theorem InFabric.localRankToRank (hpos : 0 < topos.length) {m l : ℕ}
    {ranks : List ℤ} {x : ℤ} (hm : s.nodeLists[m]? = some ranks) (hl : ranks[l]? = some x) :
    s.localRankToRank l m = .ok x := by
  have hset : s.rankStates_.length > 0 := by
    rw [h.ranks]
    exact hpos
  have hne : (m : ℤ) ≠ -1 := by omega
  rw [nodeLists, h.cliqueEnabled] at hm
  cases on with
  | true =>
    rw [if_pos rfl] at hm
    simp only [CommStateX.localRankToRank, checkTopoSet, hset, h.enabled, h.cliqueEnabled, hne,
      vectorAt_nat hm, vectorAt_nat hl, if_true, if_false, bind, Except.bind]
  | false =>
    rw [if_neg Bool.false_ne_true] at hm
    simp only [CommStateX.localRankToRank, checkTopoSet, hset, h.enabled, h.cliqueEnabled, hne,
      vectorAt_nat hm, vectorAt_nat hl, if_true, if_false, bind, Except.bind, Bool.false_eq_true]

theorem InFabric.grouped {κ : Type} [DecidableEq κ] {f : ℕ → Option κ}
    (hpos : 0 < topos.length) (hlists : s.nodeLists = groupsOf f topos.length)
    (hjoined : ∀ r state, s.nvlFabricRankStates_[r]? = some state → Joined f topos.length r
      (if on then state.cliqueIndex else state.nvlDomainIndex)
      (if on then state.cliqueRank else state.nvlDomainRank)
      (if on then state.nCliqueRanks else state.nNvlDomainRanks)
      (if on then state.cliqueRankToRank else state.nvlDomainRankToRank)) :
    Grouped f topos.length s where
  lists := hlists
  accessors := by
    intro r hr
    have hr' : r < s.nvlFabricRankStates_.length := by
      rw [h.length]
      exact hr
    have hstate := List.getElem?_eq_getElem hr'
    generalize s.nvlFabricRankStates_[r] = state at hstate
    exact ⟨_, _, _, _, h.select _ _ _ hstate, h.select _ _ _ hstate, h.select _ _ _ hstate,
      hjoined r state hstate⟩
  toRank := fun _ _ _ _ hm hl => h.localRankToRank hpos hm hl

end

theorem InFabric.grouped_clique (h : InFabric true topos s) (hpos : 0 < topos.length) :
    Grouped (cliqueOf topos) topos.length s := by
  apply h.grouped hpos
  · rw [nodeLists, h.cliqueEnabled, if_pos rfl, h.cliques rfl]
  · intro r state hstate
    exact (h.states r state hstate).2 rfl

theorem InFabric.grouped_domain (h : InFabric false topos s) (hpos : 0 < topos.length) :
    Grouped (domainOf topos) topos.length s := by
  apply h.grouped hpos
  · rw [nodeLists, h.cliqueEnabled, if_neg Bool.false_ne_true, h.domains]
  · intro r state hstate
    exact (h.states r state hstate).1

/-! ### Consistency -/

/-- Ranks with the same clique id are in one NVL domain. -/
def CliquesWithinDomains (topos : List NvlFabricTopology) : Prop :=
  ∀ ta ∈ topos, ∀ tb ∈ topos, ta.supportNvlFabric = true → tb.supportNvlFabric = true →
    ta.cliqueId = tb.cliqueId → ta.clusterId = tb.clusterId

instance (topos : List NvlFabricTopology) : Decidable (CliquesWithinDomains topos) := by
  unfold CliquesWithinDomains
  infer_instance

section Consistency

variable {κ : Type} [DecidableEq κ] {f : ℕ → Option κ}

theorem Grouped.node_eq_iff (h : Grouped f n s) {a b : ℕ} (ha : a < n) (hb : b < n) {x y : κ}
    (hx : f a = some x) (hy : f b = some y) : s.node a = s.node b ↔ x = y := by
  rcases h.accessors a ha with ⟨_, _, _, _, hnodeA, _, _, _, hA⟩
  rcases h.accessors b hb with ⟨_, _, _, _, hnodeB, _, _, _, hB⟩
  rcases hA x hx with ⟨m, hm, rfl, _⟩
  rcases hB y hy with ⟨l, hl, rfl, _⟩
  rw [hnodeA, hnodeB, Except.ok.injEq, Int.natCast_inj]
  constructor
  · rintro rfl
    rw [hm, Option.some.injEq] at hl
    exact hl
  · rintro rfl
    exact (List.getElem?_inj (List.getElem?_eq_some_iff.mp hm).1 (keys_nodup f n)).mp
      (hm.trans hl.symm)

theorem groupsOf_perm (f : ℕ → Option κ) (n : ℕ) : (groupsOf f n).flatten.Perm
    (((List.range n).filter fun i => (f i).isSome).map fun r : ℕ => (r : ℤ)) := by
  have hmap := (groups_perm f n).map fun r : ℕ => (r : ℤ)
  rw [List.map_flatMap] at hmap
  exact hmap

theorem Grouped.consistent (h : Grouped f topos.length s)
    (hsupport : ∀ (r : ℕ) t, topos[r]? = some t → (f r).isSome = t.supportNvlFabric)
    (hcluster : ∀ (a b : ℕ) ta tb, topos[a]? = some ta → topos[b]? = some tb →
      ta.supportNvlFabric = true → tb.supportNvlFabric = true → f a = f b →
      ta.clusterId = tb.clusterId)
    (hdomains : s.nvlDomainRanks_.flatten.Perm (supporting topos)) : NvlConsistent topos s := by
  have hkey : ∀ (r : ℕ) t, topos[r]? = some t → t.supportNvlFabric = true →
      r < topos.length ∧ ∃ k, f r = some k := by
    intro r t ht hsup
    rw [← hsupport r t ht] at hsup
    exact ⟨(List.getElem?_eq_some_iff.mp ht).1, Option.isSome_iff_exists.mp hsup⟩
  exact
    { cluster := by
        intro a b ta tb hta htb hsa hsb hnode
        rcases hkey a ta hta hsa with ⟨ha, x, hx⟩
        rcases hkey b tb htb hsb with ⟨hb, y, hy⟩
        apply hcluster a b ta tb hta htb hsa hsb
        rw [hx, hy, (h.node_eq_iff ha hb hx hy).mp hnode]
      separate := by
        intro a b ta tb hta htb hsa hsb
        rcases hkey a ta hta hsa with ⟨ha, x, hx⟩
        have hb : f b = none := by
          rw [← Option.not_isSome_iff_eq_none, hsupport b tb htb, hsb]
          exact Bool.false_ne_true
        rcases h.accessors a ha with ⟨_, _, _, _, hnodeA, _, _, _, hA⟩
        rcases h.accessors b (List.getElem?_eq_some_iff.mp htb).1 with
          ⟨_, _, _, _, hnodeB, _, _, hB, _⟩
        rcases hA x hx with ⟨m, _, rfl, _⟩
        refine ⟨_, _, hnodeA, hnodeB, ?_⟩
        rw [hB hb]
        omega
      inverse := by
        intro r t ht hsup
        rcases hkey r t ht hsup with ⟨hr, x, hx⟩
        rcases h.accessors r hr with ⟨_, _, _, _, hnode, hlocal, _, _, hjoined⟩
        rcases hjoined x hx with ⟨m, hm, rfl, rfl, _⟩
        refine ⟨_, _, hlocal, hnode, ?_⟩
        have hlist : s.nodeLists[m]? = some ((members f topos.length x).map fun r : ℕ => (r : ℤ)) := by
          rw [h.lists]
          exact getElem?_groupsOf hm
        apply h.toRank m _ _ _ hlist
        rw [List.getElem?_map, getElem?_members hx hr]
        rfl
      partition := by
        have hfilter : (List.range topos.length).filter (fun i => (f i).isSome) =
            (List.range topos.length).filter fun i =>
              (topos[i]?).any NvlFabricTopology.supportNvlFabric := by
          apply List.filter_congr
          intro i hi
          have ht := List.getElem?_eq_getElem (List.mem_range.mp hi)
          rw [hsupport i _ ht, ht]
          rfl
        rw [h.lists, supporting, ← hfilter]
        exact groupsOf_perm f topos.length
      domains := hdomains
      nLocalRanks := by
        intro r t ht hsup
        rcases hkey r t ht hsup with ⟨hr, x, hx⟩
        rcases h.accessors r hr with ⟨_, _, _, _, hnode, _, hcount, _, hjoined⟩
        rcases hjoined x hx with ⟨m, hm, rfl, _, rfl, _⟩
        have hlist : s.nodeLists[m]? = some ((members f topos.length x).map fun r : ℕ => (r : ℤ)) := by
          rw [h.lists]
          exact getElem?_groupsOf hm
        exact ⟨_, _, hnode, vectorAt_nat hlist, by rw [hcount, List.length_map]⟩ }

end Consistency

theorem domainOf_isSome (ht : topos[r]? = some t) :
    (domainOf topos r).isSome = t.supportNvlFabric := by
  cases hsup : t.supportNvlFabric <;> simp [domainOf, ht, hsup]

theorem cliqueOf_isSome (ht : topos[r]? = some t) :
    (cliqueOf topos r).isSome = t.supportNvlFabric := by
  cases hsup : t.supportNvlFabric <;> simp [cliqueOf, ht, hsup]

theorem InFabric.consistent_iff (h : InFabric on topos s) (hpos : 0 < topos.length) :
    NvlConsistent topos s ↔ (on = true → CliquesWithinDomains topos) := by
  have hdomains : s.nvlDomainRanks_.flatten.Perm (supporting topos) := by
    have hfilter : (List.range topos.length).filter (fun i => (domainOf topos i).isSome) =
        (List.range topos.length).filter fun i =>
          (topos[i]?).any NvlFabricTopology.supportNvlFabric := by
      apply List.filter_congr
      intro i hi
      have ht := List.getElem?_eq_getElem (List.mem_range.mp hi)
      rw [domainOf_isSome ht, ht]
      rfl
    rw [h.domains, supporting, ← hfilter]
    exact groupsOf_perm _ _
  cases on with
  | false =>
    constructor
    · intro _ hon
      cases hon
    · intro _
      apply (h.grouped_domain hpos).consistent (fun r t ht => domainOf_isSome ht) _ hdomains
      intro a b ta tb hta htb hsa hsb hab
      simpa [domainOf, hta, htb, hsa, hsb] using hab
  | true =>
    have hgrouped := h.grouped_clique hpos
    constructor
    · intro hc _ ta hta tb htb hsa hsb hid
      rcases List.getElem?_of_mem hta with ⟨a, ha⟩
      rcases List.getElem?_of_mem htb with ⟨b, hb⟩
      have hfa : cliqueOf topos a = some ta.cliqueId := by simp [cliqueOf, ha, hsa]
      have hfb : cliqueOf topos b = some tb.cliqueId := by simp [cliqueOf, hb, hsb]
      apply hc.cluster a b ta tb ha hb hsa hsb
      exact (hgrouped.node_eq_iff (List.getElem?_eq_some_iff.mp ha).1
        (List.getElem?_eq_some_iff.mp hb).1 hfa hfb).mpr hid
    · intro hwithin
      apply hgrouped.consistent (fun r t ht => cliqueOf_isSome ht) _ hdomains
      intro a b ta tb hta htb hsa hsb hab
      have hid : ta.cliqueId = tb.cliqueId := by simpa [cliqueOf, hta, htb, hsa, hsb] using hab
      exact hwithin rfl ta (List.mem_of_getElem? hta) tb (List.mem_of_getElem? htb) hsa hsb hid

/-! ### Calls -/

/-- A call of `setNvlFabricTopos`. -/
structure NvlCall where
  env : Cvars
  topos : List NvlFabricTopology

/-- The call puts the fabric into use: it is enabled, and the calling rank supports it. -/
def NvlCall.usesFabric (c : NvlCall) (rank : ℤ) : Bool :=
  c.env.NCCL_CTRAN_NVL_FABRIC_ENABLE &&
    (vectorAt c.topos rank).toOption.any NvlFabricTopology.supportNvlFabric

/-- Cliques are enabled. -/
def NvlCall.cliquesEnabled (c : NvlCall) : Bool :=
  decide (0 < c.env.NCCL_MNNVL_CLIQUE_SIZE) && c.env.NCCL_MNNVL_DETERMINISTIC_COLLECTIVE_ENABLE

def setNvlCall (s : CommStateX) (c : NvlCall) : Except Fault CommStateX :=
  s.setNvlFabricTopos c.env c.topos

/-- No NVL fabric has been set yet. -/
structure Fresh (s : CommStateX) : Prop where
  nvlDomainRanks_ : s.nvlDomainRanks_ = []
  cliqueRanks_ : s.cliqueRanks_ = []
  nvlFabricRankStates_ : s.nvlFabricRankStates_ = []
  myNvlFabricRankState_ : s.myNvlFabricRankState_ = {}
  nvlFabricEnabled_ : s.nvlFabricEnabled_ = false
  nvlFabricCliqueEnabled_ : s.nvlFabricCliqueEnabled_ = false
  nvlFabricTopos_ : s.nvlFabricTopos_ = []

/-- What `setNvlFabricTopos` does not touch, and the lists of cliques that it does not clear. -/
structure SameHosts (s₀ s : CommStateX) : Prop where
  rank_ : s.rank_ = s₀.rank_
  nRanks_ : s.nRanks_ = s₀.nRanks_
  rankTopologies_ : s.rankTopologies_ = s₀.rankTopologies_
  hostToRanks_ : s.hostToRanks_ = s₀.hostToRanks_
  nodeRanks_ : s.nodeRanks_ = s₀.nodeRanks_
  rankStates_ : s.rankStates_ = s₀.rankStates_
  cliqueRanks_ : s.cliqueRanks_ = []

variable {s₀ : CommStateX} {c : NvlCall}

theorem vectorAt_of_usesFabric {rank : ℤ} (h : c.usesFabric rank = true) :
    ∃ my, vectorAt c.topos rank = .ok my ∧ my.supportNvlFabric = true ∧
      c.env.NCCL_CTRAN_NVL_FABRIC_ENABLE = true := by
  simp only [NvlCall.usesFabric, Bool.and_eq_true] at h
  rcases h with ⟨henable, hsup⟩
  cases hmy : vectorAt c.topos rank with
  | error e =>
    rw [hmy] at hsup
    cases hsup
  | ok my =>
    rw [hmy] at hsup
    exact ⟨my, rfl, hsup, henable⟩

theorem vectorAt_range {xs : List α} {x : α} (h : vectorAt xs i = .ok x) :
    0 ≤ i ∧ xs[i.toNat]? = some x := by
  unfold vectorAt at h
  split at h
  · rename_i hi
    split at h
    · rename_i hx
      cases h
      exact ⟨hi, hx⟩
    · cases h
  · cases h

theorem vectorAt_of_length {α β : Type} {xs : List α} {ys : List β} {x : α}
    (h : vectorAt xs i = .ok x) (hlen : xs.length = ys.length) : ∃ y, vectorAt ys i = .ok y := by
  rcases vectorAt_range h with ⟨hi, hx⟩
  have hlt := (List.getElem?_eq_some_iff.mp hx).1
  rw [hlen] at hlt
  refine ⟨ys[i.toNat], ?_⟩
  rw [vectorAt, if_pos hi, List.getElem?_eq_getElem hlt]

/-- A call that puts the fabric into use, where no lists of cliques are left: the state after it is
that of a fresh communicator. -/
theorem SameHosts.setNvlCall_fabric (h : SameHosts s₀ s) (hsize : (c.topos.length : ℤ) = s₀.nRanks_)
    (hranks : (s₀.rankStates_.length : ℤ) = s₀.nRanks_) (huse : c.usesFabric s₀.rank_ = true)
    (hfresh : s₀.cliqueRanks_ = []) :
    ∃ s', setNvlCall s c = .ok s' ∧ setNvlCall s₀ c = .ok s' ∧
      InFabric c.cliquesEnabled c.topos s' ∧ s'.rank_ = s₀.rank_ ∧
      (c.cliquesEnabled = false → SameHosts s₀ s') ∧
      (c.cliquesEnabled = true → s'.cliqueRanks_ ≠ []) := by
  rcases vectorAt_of_usesFabric huse with ⟨my, hmy, hsup, henable⟩
  rcases nvlTables_spec c.cliquesEnabled c.topos with ⟨t, htables, ht⟩
  rcases vectorAt_of_length hmy ht.length.symm with ⟨myState, hmyState⟩
  have hcall : ∀ u : CommStateX, u.rank_ = s₀.rank_ → u.nRanks_ = s₀.nRanks_ →
      u.cliqueRanks_ = [] → setNvlCall u c = .ok { u with
        nvlFabricTopos_ := c.topos
        nvlFabricRankStates_ := t.nvlFabricRankStates_
        nvlDomainRanks_ := t.nvlDomainRanks_
        cliqueRanks_ := t.cliqueRanks_
        nvlFabricEnabled_ := true
        nvlFabricCliqueEnabled_ := c.cliquesEnabled
        myNvlFabricRankState_ := myState } := by
    intro u hrank hn hclq
    have htables' := htables
    rw [NvlCall.cliquesEnabled] at htables' ⊢
    simp only [setNvlCall, setNvlFabricTopos, hn, hsize, hrank, hmy, hsup, henable, hclq, htables',
      hmyState, ne_eq, not_true_eq_false, if_false, Bool.and_self, Bool.not_true, Bool.false_eq_true,
      bind, Except.bind]
  have hsame : ({ s with
      nvlFabricTopos_ := c.topos
      nvlFabricRankStates_ := t.nvlFabricRankStates_
      nvlDomainRanks_ := t.nvlDomainRanks_
      cliqueRanks_ := t.cliqueRanks_
      nvlFabricEnabled_ := true
      nvlFabricCliqueEnabled_ := c.cliquesEnabled
      myNvlFabricRankState_ := myState } : CommStateX) = { s₀ with
      nvlFabricTopos_ := c.topos
      nvlFabricRankStates_ := t.nvlFabricRankStates_
      nvlDomainRanks_ := t.nvlDomainRanks_
      cliqueRanks_ := t.cliqueRanks_
      nvlFabricEnabled_ := true
      nvlFabricCliqueEnabled_ := c.cliquesEnabled
      myNvlFabricRankState_ := myState } := by
    rw [h.rank_, h.nRanks_, h.rankTopologies_, h.hostToRanks_, h.nodeRanks_, h.rankStates_]
  have hs := hcall s h.rank_ h.nRanks_ h.cliqueRanks_
  rw [hsame] at hs
  refine ⟨_, hs, hcall s₀ rfl rfl hfresh, ?_, rfl, ?_, ?_⟩
  · exact
      { enabled := rfl
        cliqueEnabled := rfl
        ranks := by
          apply Int.natCast_inj.mp
          rw [hranks, hsize]
        my := hmyState
        __ := ht
        cliques := by
          intro hon
          simp only [ht.cliques, hon, if_true] }
  · intro hoff
    refine ⟨rfl, rfl, rfl, rfl, rfl, rfl, ?_⟩
    simp only [ht.cliques, hoff, Bool.false_eq_true, if_false]
  · intro hon
    simp only [ht.cliques, hon, if_true]
    rcases vectorAt_range hmy with ⟨_, hx⟩
    have hkey : cliqueOf c.topos s₀.rank_.toNat = some my.cliqueId := by
      simp [cliqueOf, hx, hsup]
    have hmem : my.cliqueId ∈ keys (cliqueOf c.topos) c.topos.length :=
      mem_keys.mpr ⟨_, (List.getElem?_eq_some_iff.mp hx).1, hkey⟩
    apply List.ne_nil_of_length_pos
    rw [groupsOf_length]
    exact List.length_pos_of_mem hmem

/-- A call that does not put the fabric into use clears two tables and no more. -/
theorem setNvlCall_idle (hsize : (c.topos.length : ℤ) = s.nRanks_) {my : NvlFabricTopology}
    (hmy : vectorAt c.topos s.rank_ = .ok my) (huse : c.usesFabric s.rank_ = false) :
    setNvlCall s c = .ok { s with
      nvlFabricTopos_ := c.topos
      nvlFabricRankStates_ := []
      nvlDomainRanks_ := []
      nvlFabricEnabled_ := false } := by
  have hoff : (c.env.NCCL_CTRAN_NVL_FABRIC_ENABLE && my.supportNvlFabric) = false := by
    simpa [NvlCall.usesFabric, hmy, Except.toOption] using huse
  simp only [setNvlCall, setNvlFabricTopos, hsize, hmy, hoff, ne_eq, not_true_eq_false, if_false,
    Bool.not_false, if_true, bind, Except.bind]

theorem SameHosts.run (h : SameHosts s₀ s) (hfresh : s₀.cliqueRanks_ = [])
    (hranks : (s₀.rankStates_.length : ℤ) = s₀.nRanks_) {calls : List NvlCall}
    (hsize : ∀ d ∈ calls, (d.topos.length : ℤ) = s₀.nRanks_)
    (hmy : ∀ d ∈ calls, ∃ my, vectorAt d.topos s₀.rank_ = .ok my)
    (hoff : ∀ d ∈ calls, d.usesFabric s₀.rank_ = true → d.cliquesEnabled = false) :
    ∃ s', run setNvlCall s calls = .ok s' ∧ SameHosts s₀ s' := by
  induction calls generalizing s with
  | nil => exact ⟨s, rfl, h⟩
  | cons d calls ih =>
    have hstep : ∃ t, setNvlCall s d = .ok t ∧ SameHosts s₀ t := by
      have hd := hsize d List.mem_cons_self
      cases huse : d.usesFabric s₀.rank_ with
      | true =>
        rcases h.setNvlCall_fabric hd hranks huse hfresh with ⟨t, ht, _, _, _, hsame, _⟩
        exact ⟨t, ht, hsame (hoff d List.mem_cons_self huse)⟩
      | false =>
        rcases hmy d List.mem_cons_self with ⟨my, hmy⟩
        refine ⟨_, setNvlCall_idle (h.nRanks_ ▸ hd) (h.rank_ ▸ hmy) (h.rank_ ▸ huse), ?_⟩
        exact ⟨h.rank_, h.nRanks_, h.rankTopologies_, h.hostToRanks_, h.nodeRanks_, h.rankStates_,
          h.cliqueRanks_⟩
    rcases hstep with ⟨t, ht, ht'⟩
    rcases ih ht' (fun e he => hsize e (List.mem_cons_of_mem _ he))
      (fun e he => hmy e (List.mem_cons_of_mem _ he))
      (fun e he => hoff e (List.mem_cons_of_mem _ he)) with ⟨s', hs', hfinal⟩
    exact ⟨s', by rw [run_cons_ok calls ht, hs'], hfinal⟩

theorem run_stale (calls : List NvlCall) (hne : s.cliqueRanks_ ≠ [])
    (huse : c.usesFabric s.rank_ = true) : ∃ e, run setNvlCall s (calls ++ [c]) = .error e := by
  have hfabric : ∀ (u : CommStateX) (d : NvlCall), u.cliqueRanks_ ≠ [] →
      (∃ e, setNvlCall u d = .error e) ∨ ∃ u', setNvlCall u d = .ok u' ∧
        u'.cliqueRanks_ ≠ [] ∧ u'.rank_ = u.rank_ ∧ d.usesFabric u.rank_ = false := by
    intro u d hu
    by_cases hsize : (d.topos.length : ℤ) = u.nRanks_
    · cases hmy : vectorAt d.topos u.rank_ with
      | error e =>
        refine Or.inl ⟨e, ?_⟩
        simp only [setNvlCall, setNvlFabricTopos, hsize, hmy, ne_eq, not_true_eq_false, if_false,
          bind, Except.bind]
      | ok my =>
        cases huse : d.usesFabric u.rank_ with
        | false => exact Or.inr ⟨_, setNvlCall_idle hsize hmy huse, hu, rfl, rfl⟩
        | true =>
          rcases vectorAt_of_usesFabric huse with ⟨my', hmy', hsup, henable⟩
          rcases nvlTables_stale d.cliquesEnabled hu d.topos with ⟨e, he⟩
          refine Or.inl ⟨e, ?_⟩
          rw [NvlCall.cliquesEnabled] at he
          simp only [setNvlCall, setNvlFabricTopos, hsize, hmy', hsup, henable, he, ne_eq,
            not_true_eq_false, if_false, Bool.and_self, Bool.not_true, Bool.false_eq_true, bind,
            Except.bind]
    · refine Or.inl ⟨.checkAbort, ?_⟩
      simp only [setNvlCall, setNvlFabricTopos, ne_eq, hsize, not_false_eq_true, if_true]
  induction calls generalizing s with
  | nil =>
    rcases hfabric s c hne with ⟨e, he⟩ | ⟨_, _, _, _, hidle⟩
    · exact ⟨e, by simp only [List.nil_append, run, he]⟩
    · rw [huse] at hidle
      cases hidle
  | cons d calls ih =>
    rcases hfabric s d hne with ⟨e, he⟩ | ⟨s', hs', hne', hrank, _⟩
    · exact ⟨e, by simp only [List.cons_append, run, he]⟩
    · rw [List.cons_append, run_cons_ok _ hs']
      exact ih hne' (hrank ▸ huse)

/-- A call that puts the fabric into use, after any calls, leaves a consistent state, that of a
fresh communicator, just when no call before it used cliques and the cliques that it uses lie within
NVL domains. -/
theorem nvlConsistent_iff {s : CommStateX} (hfresh : Fresh s)
    (hranks : (s.rankStates_.length : ℤ) = s.nRanks_) (earlier : List NvlCall) (c : NvlCall)
    (hsize : ∀ d ∈ earlier ++ [c], (d.topos.length : ℤ) = s.nRanks_)
    (huse : c.usesFabric s.rank_ = true) :
    (∃ s', run setNvlCall s (earlier ++ [c]) = .ok s' ∧ NvlConsistent c.topos s' ∧
        setNvlCall s c = .ok s') ↔
      (∀ d ∈ earlier, d.usesFabric s.rank_ = true → d.cliquesEnabled = false) ∧
        (c.cliquesEnabled = true → CliquesWithinDomains c.topos) := by
  have hc := hsize c (List.mem_append_right _ List.mem_cons_self)
  rcases vectorAt_of_usesFabric huse with ⟨my, hmy, _⟩
  have hpos : 0 < c.topos.length :=
    Nat.zero_lt_of_lt (List.getElem?_eq_some_iff.mp (vectorAt_range hmy).2).1
  have hmys : ∀ d ∈ earlier, ∃ my, vectorAt d.topos s.rank_ = .ok my := by
    intro d hd
    apply vectorAt_of_length hmy
    have hd' := hsize d (List.mem_append_left _ hd)
    omega
  have hself : SameHosts s s := ⟨rfl, rfl, rfl, rfl, rfl, rfl, hfresh.cliqueRanks_⟩
  by_cases hoff : ∀ d ∈ earlier, d.usesFabric s.rank_ = true → d.cliquesEnabled = false
  · rcases hself.run hfresh.cliqueRanks_ hranks
      (fun d hd => hsize d (List.mem_append_left _ hd)) hmys hoff with ⟨t, ht, hsame⟩
    rcases hsame.setNvlCall_fabric hc hranks huse hfresh.cliqueRanks_ with
      ⟨s', hs', hs'', hfabric, _⟩
    have hrun : run setNvlCall s (earlier ++ [c]) = .ok s' := by
      rw [run_append_ok [c] ht]
      simp only [run, hs']
    rw [← hfabric.consistent_iff hpos]
    constructor
    · rintro ⟨u, hu, hconsistent, _⟩
      rw [hrun, Except.ok.injEq] at hu
      subst hu
      exact ⟨hoff, hconsistent⟩
    · rintro ⟨_, hconsistent⟩
      exact ⟨s', hrun, hconsistent, hs''⟩
  · constructor
    · rintro ⟨u, hu, _⟩
      cases hfind : earlier.find? fun d => d.usesFabric s.rank_ && d.cliquesEnabled with
      | none =>
        exfalso
        apply hoff
        intro d hd hused
        have hnot := List.find?_eq_none.mp hfind d hd
        simpa [hused] using hnot
      | some d =>
        -- the first call that uses cliques leaves their lists behind
        rcases List.find?_eq_some_iff_append.mp hfind with ⟨hd, pre, post, rfl, hpre⟩
        rw [Bool.and_eq_true] at hd
        have hoff' : ∀ e ∈ pre, e.usesFabric s.rank_ = true → e.cliquesEnabled = false := by
          intro e he hused
          have hnot := hpre e he
          simpa [hused] using hnot
        have hin : ∀ e ∈ pre, e ∈ pre ++ d :: post := fun e he => List.mem_append_left _ he
        rcases hself.run hfresh.cliqueRanks_ hranks
          (fun e he => hsize e (List.mem_append_left _ (hin e he))) (fun e he => hmys e (hin e he))
          hoff' with ⟨t, ht, hsame⟩
        have hdsize := hsize d
          (List.mem_append_left _ (List.mem_append_right _ List.mem_cons_self))
        rcases hsame.setNvlCall_fabric hdsize hranks hd.1 hfresh.cliqueRanks_ with
          ⟨t', ht', _, _, hrank, _, hne⟩
        rcases run_stale post (hne hd.2) (hrank ▸ huse) with ⟨e, he⟩
        rw [List.append_assoc, run_append_ok _ ht, List.cons_append, run_cons_ok _ ht', he] at hu
        cases hu
    · rintro ⟨h, _⟩
      exact absurd h hoff

/-- The topology of two ranks in two NVL domains, or with one clique id. -/
def twoRanks (clusterId : String) : List NvlFabricTopology :=
  [⟨0, true, "a", 0⟩, ⟨1, true, clusterId, 0⟩]

/-- A communicator of two ranks on one host. -/
def twoRankComm : CommStateX where
  rank_ := 0
  nRanks_ := 2
  rankStates_ := [{ rank := 0, host := "h" }, { rank := 1, host := "h" }]

/-- The fabric with cliques. -/
def cliqueCvars : Cvars where
  NCCL_CTRAN_NVL_FABRIC_ENABLE := true
  NCCL_MNNVL_CLIQUE_SIZE := 2
  NCCL_MNNVL_DETERMINISTIC_COLLECTIVE_ENABLE := true

theorem twoRankComm_fresh : Fresh twoRankComm := ⟨rfl, rfl, rfl, rfl, rfl, rfl, rfl⟩

/-- One call with cliques, which lie within a domain. -/
theorem nvlConsistent_two_ranks :
    ∃ s', run setNvlCall twoRankComm ([] ++ [⟨cliqueCvars, twoRanks "a"⟩]) = .ok s' ∧
      NvlConsistent (twoRanks "a") s' ∧
      setNvlCall twoRankComm ⟨cliqueCvars, twoRanks "a"⟩ = .ok s' :=
  (nvlConsistent_iff twoRankComm_fresh rfl [] ⟨cliqueCvars, twoRanks "a"⟩ (by decide) rfl).mpr
    ⟨nofun, by decide⟩

/-- Two domains with one clique id become one node, and a second call with cliques aborts. -/
theorem not_nvlConsistent :
    (¬ ∀ (s : CommStateX) (earlier : List NvlCall) (c : NvlCall), Fresh s →
      (s.rankStates_.length : ℤ) = s.nRanks_ →
      (∀ d ∈ earlier ++ [c], (d.topos.length : ℤ) = s.nRanks_) → c.usesFabric s.rank_ = true →
      ∃ s', run setNvlCall s (earlier ++ [c]) = .ok s' ∧ NvlConsistent c.topos s' ∧
        setNvlCall s c = .ok s') ∧
    (¬ ∃ s', run setNvlCall twoRankComm [⟨cliqueCvars, twoRanks "b"⟩] = .ok s' ∧
      NvlConsistent (twoRanks "b") s') ∧
    ∃ e, run setNvlCall twoRankComm
      [⟨cliqueCvars, twoRanks "a"⟩, ⟨cliqueCvars, twoRanks "a"⟩] = .error e := by
  have habort : run setNvlCall twoRankComm
      [⟨cliqueCvars, twoRanks "a"⟩, ⟨cliqueCvars, twoRanks "a"⟩] = .error .checkAbort := rfl
  refine ⟨?_, ?_, _, habort⟩
  · intro hall
    rcases hall twoRankComm [⟨cliqueCvars, twoRanks "a"⟩] ⟨cliqueCvars, twoRanks "a"⟩
      twoRankComm_fresh rfl (by decide) rfl with ⟨s', hrun, _⟩
    rw [List.singleton_append, habort] at hrun
    cases hrun
  · rintro ⟨s', hrun, hc⟩
    cases hrun
    have hcluster := hc.cluster 0 1 _ _ rfl rfl rfl rfl rfl
    exact absurd hcluster (by decide)

end TorchComms.CommState.CommStateX
