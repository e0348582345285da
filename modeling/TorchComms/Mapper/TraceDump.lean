import TorchComms.Mapper.MapperTrace

/-! # What a dump of the mapper trace describes

The reader's state is a digest of the events that it has read, as long as these are the events of
the collective from its first on.
-/
namespace TorchComms.Mapper.Trace

open Function

variable {evs evs' history : List MapperEvent} {e e' : MapperEvent} {req i j size recordMax : ℕ}
  {p : ℤ} {info : CurCollInfo} {s s' : State}

/-! ## One more event -/

theorem getElem?_concat : (evs ++ [e])[i]? = some e' ↔
    evs[i]? = some e' ∨ i = evs.length ∧ e = e' := by
  rw [List.getElem?_append]
  split
  · rename_i hlt
    exact ⟨.inl, fun h => h.resolve_right fun h' => absurd h'.1 (Nat.ne_of_lt hlt)⟩
  · rename_i hge
    rw [List.getElem?_eq_none (Nat.le_of_not_lt hge), List.getElem?_singleton]
    split
    · have heq : i = evs.length := by omega
      simp [heq]
    · have hne : i ≠ evs.length := by omega
      simp [hne]

theorem lt_of_getElem? (h : evs[i]? = some e) : i < evs.length :=
  (List.getElem?_eq_some_iff.mp h).1

theorem unfinished_concat : Unfinished (evs ++ [e]) req i ↔
    Unfinished evs req i ∧ e ≠ .mapperRequestEnd req ∨
      i = evs.length ∧ e.startReq = some req := by
  constructor
  · rintro ⟨e', he', hstart, hend⟩
    rcases getElem?_concat.mp he' with he' | ⟨hi, rfl⟩
    · have hlt := lt_of_getElem? he'
      refine .inl ⟨⟨e', he', hstart, fun k hk hkend => ?_⟩, fun heq => ?_⟩
      · exact hend k hk (getElem?_concat.mpr (.inl hkend))
      · exact hend evs.length hlt (getElem?_concat.mpr (.inr ⟨rfl, heq⟩))
    · exact .inr ⟨hi, hstart⟩
  · rintro (⟨⟨e', he', hstart, hend⟩, hne⟩ | ⟨rfl, hstart⟩)
    · refine ⟨e', getElem?_concat.mpr (.inl he'), hstart, fun k hk hkend => ?_⟩
      rcases getElem?_concat.mp hkend with hkend | ⟨-, heq⟩
      · exact hend k hk hkend
      · exact hne heq
    · refine ⟨e, getElem?_concat.mpr (.inr ⟨rfl, rfl⟩), hstart, fun k hk hkend => ?_⟩
      have hlt := lt_of_getElem? hkend
      rw [List.length_append, List.length_singleton] at hlt
      omega

/-- A request is started again only after it has ended. -/
def Reused (evs : List MapperEvent) : Prop :=
  ∀ (i j : ℕ) (e e' : MapperEvent) (req : ℕ), i < j → evs[i]? = some e → evs[j]? = some e' → e.startReq = some req →
    e'.startReq = some req → ∃ k, i < k ∧ k < j ∧ evs[k]? = some (.mapperRequestEnd req)

theorem reused_nil : Reused [] := by
  intro i j e e' req _ he
  simp at he

theorem Reused.concat (hre : Reused evs)
    (hnew : ∀ req, e.startReq = some req → ∀ i, ¬Unfinished evs req i) : Reused (evs ++ [e]) := by
  intro i j e₁ e₂ req hij he₁ he₂ hstart₁ hstart₂
  have hlt := lt_of_getElem? he₂
  rw [List.length_append, List.length_singleton] at hlt
  have he₁ : evs[i]? = some e₁ := by
    rcases getElem?_concat.mp he₁ with he₁ | ⟨hi, -⟩
    · exact he₁
    · omega
  rcases getElem?_concat.mp he₂ with he₂ | ⟨rfl, rfl⟩
  · obtain ⟨k, hik, hkj, hk⟩ := hre i j e₁ e₂ req hij he₁ he₂ hstart₁ hstart₂
    exact ⟨k, hik, hkj, getElem?_concat.mpr (.inl hk)⟩
  · by_contra hnone
    refine hnew req hstart₂ i ⟨e₁, he₁, hstart₁, fun k hk hkend => ?_⟩
    exact hnone ⟨k, hk, lt_of_getElem? hkend, getElem?_concat.mpr (.inl hkend)⟩

theorem Reused.of_append (hre : Reused (evs ++ evs')) : Reused evs := by
  intro i j e₁ e₂ req hij he₁ he₂ hstart₁ hstart₂
  have hj := lt_of_getElem? he₂
  have hleft (k : ℕ) (hk : k < evs.length) : (evs ++ evs')[k]? = evs[k]? :=
    List.getElem?_append_left hk
  obtain ⟨k, hik, hkj, hk⟩ := hre i j e₁ e₂ req hij ((hleft i (hij.trans hj)).trans he₁)
    ((hleft j hj).trans he₂) hstart₁ hstart₂
  exact ⟨k, hik, hkj, (hleft k (hkj.trans hj)).symm.trans hk⟩

theorem Reused.unique (hre : Reused evs) (hi : Unfinished evs req i) (hj : Unfinished evs req j) :
    i = j := by
  wlog hle : i ≤ j generalizing i j
  · exact (this hj hi (Nat.le_of_not_le hle)).symm
  by_contra hne
  obtain ⟨e, he, hstart, hend⟩ := hi
  obtain ⟨e', he', hstart', -⟩ := hj
  obtain ⟨k, hik, -, hk⟩ := hre i j e e' req (by omega) he he' hstart hstart'
  exact hend k hik hk

/-! ## Finished puts -/

theorem finished_concat : Finished (evs ++ [e]) p i ↔ Finished evs p i ∨
    ∃ e' req, e = .mapperRequestEnd req ∧ evs[i]? = some e' ∧ e'.putPeer = some p ∧
      e'.startReq = some req := by
  constructor
  · rintro ⟨e', req, k, he', hput, hstart, hik, hk⟩
    have hlt := lt_of_getElem? hk
    rw [List.length_append, List.length_singleton] at hlt
    have he' : evs[i]? = some e' := by
      rcases getElem?_concat.mp he' with he' | ⟨hi, -⟩
      · exact he'
      · omega
    rcases getElem?_concat.mp hk with hk | ⟨-, heq⟩
    · exact .inl ⟨e', req, k, he', hput, hstart, hik, hk⟩
    · exact .inr ⟨e', req, heq, he', hput, hstart⟩
  · rintro (⟨e', req, k, he', hput, hstart, hik, hk⟩ | ⟨e', req, heq, he', hput, hstart⟩)
    · exact ⟨e', req, k, getElem?_concat.mpr (.inl he'), hput, hstart, hik,
        getElem?_concat.mpr (.inl hk)⟩
    · exact ⟨e', req, evs.length, getElem?_concat.mpr (.inl he'), hput, hstart,
        lt_of_getElem? he', getElem?_concat.mpr (.inr ⟨rfl, heq⟩)⟩

theorem lt_of_finished (h : Finished evs p i) : i < evs.length := by
  obtain ⟨e, req, k, he, -⟩ := h
  exact lt_of_getElem? he

theorem finishedPuts_congr (h : ∀ i, Finished (evs ++ [e]) p i ↔ Finished evs p i) :
    finishedPuts (evs ++ [e]) p = finishedPuts evs p := by
  classical
  rw [finishedPuts, finishedPuts]
  congr 1
  ext i
  simp only [Finset.mem_filter, Finset.mem_range, h]
  refine and_congr_left fun hfin => ?_
  have hlt := lt_of_finished hfin
  simp only [List.length_append, List.length_singleton]
  omega

theorem finishedPuts_succ (hj : ¬Finished evs p j)
    (h : ∀ i, Finished (evs ++ [e]) p i ↔ Finished evs p i ∨ i = j) :
    finishedPuts (evs ++ [e]) p = finishedPuts evs p + 1 := by
  classical
  rw [finishedPuts, finishedPuts, ← Finset.card_insert_of_notMem (a := j) (by simp [hj])]
  congr 1
  ext i
  simp only [Finset.mem_filter, Finset.mem_range, Finset.mem_insert, h]
  constructor
  · rintro ⟨-, hfin | rfl⟩
    · exact .inr ⟨lt_of_finished hfin, hfin⟩
    · exact .inl rfl
  · rintro (rfl | ⟨-, hfin⟩)
    · exact ⟨lt_of_finished ((h i).mpr (.inr rfl)), .inr rfl⟩
    · exact ⟨lt_of_finished ((h i).mpr (.inl hfin)), .inl hfin⟩

/-! ## The reader -/

/-- The reader has read these events. -/
structure Digest (evs : List MapperEvent) (info : CurCollInfo) : Prop where
  readIndex : info.readIndex = evs.length
  recvNotified : ∀ p, info.recvNotifiedByPeer p = evs.count (.recvNotified p)
  putFinished : ∀ p, info.putFinishedByPeer p = finishedPuts evs p
  unfinished : ∀ req i, (req, i) ∈ info.unfinishedRequests ↔ Unfinished evs req i
  keys : (info.unfinishedRequests.map (·.1)).Nodup

theorem digest_cleared (coll : Option ℕ) :
    Digest [] { CurCollInfo.cleared with currentColl := coll } where
  readIndex := rfl
  recvNotified := fun _ => rfl
  putFinished := fun _ => rfl
  unfinished := by simp [CurCollInfo.cleared, Unfinished]
  keys := List.nodup_nil

/-- Behind the event at its index. -/
def CurCollInfo.advance (info : CurCollInfo) : CurCollInfo :=
  { info with readIndex := info.readIndex + 1 }

@[simp] theorem advance_unfinishedRequests (info : CurCollInfo) :
    info.advance.unfinishedRequests = info.unfinishedRequests := rfl

@[simp] theorem recordNotified_unfinishedRequests (info : CurCollInfo) (p : ℤ) :
    (info.recordNotified p).unfinishedRequests = info.unfinishedRequests := rfl

theorem count_concat_of_ne (hne : e ≠ .recvNotified p) :
    (evs ++ [e]).count (.recvNotified p) = evs.count (.recvNotified p) := by
  simp [List.count_append, hne]

theorem finishedPuts_concat_of_ne (hne : ∀ req, e ≠ .mapperRequestEnd req) :
    finishedPuts (evs ++ [e]) p = finishedPuts evs p :=
  finishedPuts_congr fun _ => finished_concat.trans
    (or_iff_left fun ⟨_, req, heq, _⟩ => hne req heq)

section

variable (hd : Digest evs info)
include hd

theorem Digest.recordNotified (peerRank : ℤ) :
    Digest (evs ++ [.recvNotified peerRank]) (info.recordNotified peerRank).advance where
  readIndex := by simp [CurCollInfo.advance, CurCollInfo.recordNotified, hd.readIndex]
  recvNotified := by
    intro p
    by_cases hp : p = peerRank
    · subst hp
      simp [CurCollInfo.advance, CurCollInfo.recordNotified, hd.recvNotified]
    · rw [count_concat_of_ne (by simpa using Ne.symm hp), ← hd.recvNotified]
      simp [CurCollInfo.advance, CurCollInfo.recordNotified, hp]
  putFinished := by
    intro p
    rw [finishedPuts_concat_of_ne (by simp)]
    exact hd.putFinished p
  unfinished := by
    intro req i
    rw [unfinished_concat]
    simpa [MapperEvent.startReq] using hd.unfinished req i
  keys := hd.keys

theorem Digest.skip (hstart : e.startReq = none)
    (hnotified : ∀ p, e ≠ .recvNotified p) (hend : ∀ req, e ≠ .mapperRequestEnd req) :
    Digest (evs ++ [e]) info.advance where
  readIndex := by simp [CurCollInfo.advance, hd.readIndex]
  recvNotified := by
    intro p
    rw [count_concat_of_ne (hnotified p)]
    exact hd.recvNotified p
  putFinished := by
    intro p
    rw [finishedPuts_concat_of_ne hend]
    exact hd.putFinished p
  unfinished := by
    intro req i
    rw [unfinished_concat, hstart]
    simpa [hend] using hd.unfinished req i
  keys := hd.keys

theorem Digest.recordStart (hstart : e.startReq = some req)
    (hnotified : ∀ p, e ≠ .recvNotified p) (hend : ∀ req, e ≠ .mapperRequestEnd req)
    (hnew : ∀ i, ¬Unfinished evs req i) : Digest (evs ++ [e]) (info.recordStart req).advance := by
  have hnone : (info.unfinishedRequests.any fun entry => entry.1 = req) = false := by
    rw [List.any_eq_false]
    rintro ⟨req', i⟩ hmem heq
    obtain rfl := of_decide_eq_true heq
    exact hnew i ((hd.unfinished req' i).mp hmem)
  rw [CurCollInfo.recordStart, hnone]
  exact
    { readIndex := by simp [CurCollInfo.advance, hd.readIndex]
      recvNotified := by
        intro p
        rw [count_concat_of_ne (hnotified p)]
        exact hd.recvNotified p
      putFinished := by
        intro p
        rw [finishedPuts_concat_of_ne hend]
        exact hd.putFinished p
      unfinished := by
        intro req' i
        rw [unfinished_concat, hstart]
        have hold := hd.unfinished req' i
        simp [CurCollInfo.advance, hd.readIndex, hold, hend, and_comm, eq_comm]
      keys := by
        rw [List.any_eq_false] at hnone
        simp only [CurCollInfo.advance, Bool.false_eq_true, if_false, List.map_append, List.map_cons,
          List.map_nil, List.nodup_append, List.mem_singleton]
        refine ⟨hd.keys, List.nodup_singleton _, ?_⟩
        rintro _ hreq _ rfl rfl
        obtain ⟨entry, hentry, heq⟩ := List.mem_map.mp hreq
        exact hnone entry hentry (decide_eq_true heq) }

theorem Digest.recordEnd_unknown (hnone : ∀ i, ¬Unfinished evs req i) :
    Digest (evs ++ [.mapperRequestEnd req]) info.advance where
  readIndex := by simp [CurCollInfo.advance, hd.readIndex]
  recvNotified := by
    intro p
    rw [count_concat_of_ne (by simp)]
    exact hd.recvNotified p
  putFinished := by
    intro p
    rw [finishedPuts_congr]
    · exact hd.putFinished p
    · refine fun i => finished_concat.trans (or_iff_left_of_imp ?_)
      rintro ⟨e', req', heq, he', hput, hstart⟩
      cases heq
      by_contra hnot
      refine hnone i ⟨e', he', hstart, fun k hk hend => ?_⟩
      exact hnot ⟨e', req, k, he', hput, hstart, hk, hend⟩
  unfinished := by
    intro req' i
    rw [unfinished_concat, ← hd.unfinished]
    simp only [MapperEvent.startReq, reduceCtorEq, and_false, or_false, ne_eq,
      MapperEvent.mapperRequestEnd.injEq, CurCollInfo.advance]
    refine ⟨fun hmem => ⟨hmem, ?_⟩, fun h => h.1⟩
    rintro rfl
    exact hnone i ((hd.unfinished _ i).mp hmem)
  keys := hd.keys

end

theorem not_finished_of_unfinished (hun : Unfinished evs req j) : ¬Finished evs p j := by
  rintro ⟨e, req', k, he, -, hstart, hk, hkend⟩
  obtain ⟨e', he', hstart', hend⟩ := hun
  obtain rfl := Option.some.inj (he.symm.trans he')
  obtain rfl := Option.some.inj (hstart.symm.trans hstart')
  exact hend k hk hkend

theorem finished_end (hre : Reused evs) (hun : Unfinished evs req j) (he : evs[j]? = some e) :
    Finished (evs ++ [.mapperRequestEnd req]) p i ↔
      Finished evs p i ∨ i = j ∧ e.putPeer = some p := by
  rw [finished_concat]
  constructor
  · rintro (hfin | ⟨e', req', heq, he', hput, hstart⟩)
    · exact .inl hfin
    · cases heq
      by_cases hend : ∃ k, i < k ∧ evs[k]? = some (.mapperRequestEnd req)
      · obtain ⟨k, hk, hkend⟩ := hend
        exact .inl ⟨e', req, k, he', hput, hstart, hk, hkend⟩
      · have hij : i = j :=
          hre.unique ⟨e', he', hstart, fun k hk hkend => hend ⟨k, hk, hkend⟩⟩ hun
        subst hij
        obtain rfl := Option.some.inj (he.symm.trans he')
        exact .inr ⟨rfl, hput⟩
  · rintro (hfin | ⟨rfl, hput⟩)
    · exact .inl hfin
    · obtain ⟨e', he', hstart, -⟩ := hun
      obtain rfl := Option.some.inj (he.symm.trans he')
      exact .inr ⟨e, req, rfl, he, hput, hstart⟩

/-- The end of a request whose start event is this one. -/
theorem Digest.finish (hd : Digest evs info) (hre : Reused evs) (hun : Unfinished evs req j)
    (he : evs[j]? = some e) :
    Digest (evs ++ [.mapperRequestEnd req]) (info.finish req e).advance where
  readIndex := by simp [CurCollInfo.advance, CurCollInfo.finish, hd.readIndex]
  recvNotified := by
    intro p
    rw [count_concat_of_ne (by simp)]
    exact hd.recvNotified p
  putFinished := by
    intro p
    have hfinished (i : ℕ) := finished_end (p := p) (i := i) hre hun he
    simp only [CurCollInfo.advance, CurCollInfo.finish]
    cases hput : e.putPeer with
    | none =>
      rw [finishedPuts_congr (by simpa [hput] using hfinished)]
      exact hd.putFinished p
    | some peerRank =>
      by_cases hp : p = peerRank
      · subst hp
        rw [finishedPuts_succ (not_finished_of_unfinished hun) (by simpa [hput] using hfinished),
          ← hd.putFinished]
        exact update_self ..
      · rw [finishedPuts_congr (by simpa [hput, Ne.symm hp] using hfinished), ← hd.putFinished]
        exact update_of_ne hp ..
  unfinished := by
    intro req' i
    rw [unfinished_concat, ← hd.unfinished]
    simp only [advance_unfinishedRequests, CurCollInfo.finish, List.mem_filter,
      decide_eq_true_eq, MapperEvent.startReq, reduceCtorEq, and_false, or_false, ne_eq,
      MapperEvent.mapperRequestEnd.injEq]
    exact and_congr_right fun _ => ne_comm
  keys := hd.keys.sublist (List.filter_sublist.map _)

theorem Digest.recordEnd (hd : Digest evs info) (hre : Reused evs) (hsize : evs.length ≤ size)
    (hhistory : ∀ i < evs.length, history[i]? = evs[i]?) (req : ℕ) :
    ∃ info', info.recordEnd history size req = some info' ∧
      Digest (evs ++ [.mapperRequestEnd req]) info'.advance ∧
      info'.currentColl = info.currentColl := by
  rw [CurCollInfo.recordEnd]
  cases hfind : info.unfinishedRequests.find? fun entry => entry.1 = req with
  | none =>
    refine ⟨info, rfl, hd.recordEnd_unknown fun i hun => ?_, rfl⟩
    have hmem := (hd.unfinished req i).mpr hun
    exact List.find?_eq_none.mp hfind _ hmem (decide_eq_true rfl)
  | some entry =>
    obtain ⟨req', j⟩ := entry
    have hreq := List.find?_some hfind
    obtain rfl : req' = req := of_decide_eq_true hreq
    have hun := (hd.unfinished req' j).mp (List.mem_of_find?_eq_some hfind)
    obtain ⟨e, he, -⟩ := id hun
    have hlt := lt_of_getElem? he
    refine ⟨info.finish req' e, ?_, hd.finish hre hun he, rfl⟩
    simp only
    rw [if_neg (by omega), hhistory j hlt, he, Option.map_some]

theorem record_start (hnotified : ∀ p, e ≠ .recvNotified p)
    (hend : ∀ req, e ≠ .mapperRequestEnd req) :
    info.record history size e =
      match e.startReq with
      | some req => some (info.recordStart req)
      | none => some info := by
  cases e with
  | recvNotified p => exact absurd rfl (hnotified p)
  | mapperRequestEnd req => exact absurd rfl (hend req)
  | _ => rfl

theorem Reused.fresh (hre : Reused (evs ++ [e])) (hstart : e.startReq = some req) (i : ℕ) :
    ¬Unfinished evs req i := by
  rintro ⟨e', he', hstart', hend⟩
  have hlt := lt_of_getElem? he'
  obtain ⟨k, hik, hk, hkend⟩ := hre i evs.length e' e req hlt
    (getElem?_concat.mpr (.inl he')) (getElem?_concat.mpr (.inr ⟨rfl, rfl⟩)) hstart' hstart
  rcases getElem?_concat.mp hkend with hkend | ⟨heq, -⟩
  · exact hend k hik hkend
  · omega

theorem Digest.record (hd : Digest evs info) (history : List MapperEvent) (size : ℕ)
    (hre : Reused (evs ++ [e])) (hsize : evs.length ≤ size)
    (hhistory : ∀ i < evs.length, history[i]? = evs[i]?) :
    ∃ info', info.record history size e = some info' ∧ Digest (evs ++ [e]) info'.advance ∧
      info'.currentColl = info.currentColl := by
  by_cases hnotified : ∃ p, e = .recvNotified p
  · obtain ⟨p, rfl⟩ := hnotified
    exact ⟨_, rfl, hd.recordNotified p, rfl⟩
  by_cases hend : ∃ req, e = .mapperRequestEnd req
  · obtain ⟨req, rfl⟩ := hend
    exact hd.recordEnd hre.of_append hsize hhistory req
  rw [not_exists] at hnotified hend
  rw [record_start hnotified hend]
  cases hstart : e.startReq with
  | none => exact ⟨info, rfl, hd.skip hstart hnotified hend, rfl⟩
  | some req =>
    refine ⟨_, rfl, hd.recordStart hstart hnotified hend (hre.fresh hstart), ?_⟩
    rw [CurCollInfo.recordStart]
    split <;> rfl

theorem Digest.readOn (hd : Digest evs info) (history : List MapperEvent) (size : ℕ)
    (hre : Reused (evs ++ evs'))
    (hhistory : ∀ i < (evs ++ evs').length, history[i]? = (evs ++ evs')[i]?)
    (hsize : (evs ++ evs').length ≤ size) :
    ∃ info', info.readOn history size evs'.length = some info' ∧ Digest (evs ++ evs') info' ∧
      info'.currentColl = info.currentColl := by
  induction evs' generalizing evs info with
  | nil => exact ⟨info, rfl, by rwa [List.append_nil], rfl⟩
  | cons e evs' ih =>
    have hsplit : evs ++ e :: evs' = evs ++ [e] ++ evs' := by simp
    rw [hsplit] at hre hhistory hsize ⊢
    have hlen : (evs ++ [e] ++ evs').length = evs.length + 1 + evs'.length := by
      simp only [List.length_append, List.length_singleton]
    have hnext : history[info.readIndex]? = some e := by
      rw [hd.readIndex, hhistory _ (by omega), List.getElem?_append_left (by simp)]
      exact getElem?_concat.mpr (.inr ⟨rfl, rfl⟩)
    obtain ⟨info₁, hrecord, hd₁, hcoll₁⟩ := hd.record (e := e) history size
      hre.of_append (by omega) (by
        intro i hi
        rw [hhistory i (by omega), List.append_assoc, List.getElem?_append_left hi])
    obtain ⟨info₂, hread, hd₂, hcoll₂⟩ := ih hd₁ hre hhistory hsize
    refine ⟨info₂, ?_, hd₂, hcoll₂.trans hcoll₁⟩
    rw [List.length_cons, CurCollInfo.readOn, hnext]
    simp only [hrecord]
    exact hread

/-! ## The dump -/

theorem mapM_start_event (history : List MapperEvent) (entries : List (ℕ × ℕ))
    (hget : ∀ entry ∈ entries, ∃ e, history[entry.2]? = some e) :
    ∃ out, (entries.mapM fun entry => history[entry.2]?.map fun e => (e, entry.2)) = some out ∧
      out.map (·.2) = entries.map (·.2) ∧
      ∀ e i, (e, i) ∈ out ↔ history[i]? = some e ∧ i ∈ entries.map (·.2) := by
  induction entries with
  | nil => exact ⟨[], rfl, rfl, by simp⟩
  | cons entry entries ih =>
    obtain ⟨e₀, he₀⟩ := hget entry List.mem_cons_self
    obtain ⟨out, hout, hmap, hmem⟩ := ih fun entry' h => hget entry' (List.mem_cons_of_mem _ h)
    refine ⟨(e₀, entry.2) :: out, ?_, by simp [hmap], ?_⟩
    · rw [List.mapM_cons, he₀, hout]
      rfl
    · intro e i
      rw [List.mem_cons, hmem, List.map_cons, List.mem_cons, Prod.mk.injEq]
      constructor
      · rintro (⟨rfl, rfl⟩ | ⟨he, hi⟩)
        · exact ⟨he₀, .inl rfl⟩
        · exact ⟨he, .inr hi⟩
      · rintro ⟨he, rfl | hi⟩
        · exact .inl ⟨Option.some.inj (he.symm.trans he₀), rfl⟩
        · exact .inr ⟨he, hi⟩

theorem Digest.indices_nodup (hd : Digest evs info) :
    (info.unfinishedRequests.map (·.2)).Nodup := by
  refine (List.Nodup.of_map _ hd.keys).map_on ?_
  rintro ⟨req, i⟩ hmem ⟨req', i'⟩ hmem' rfl
  obtain ⟨e, he, hstart, -⟩ := (hd.unfinished req i).mp hmem
  obtain ⟨e', he', hstart', -⟩ := (hd.unfinished req' i).mp hmem'
  obtain rfl := Option.some.inj (he.symm.trans he')
  rw [Option.some.inj (hstart.symm.trans hstart')]

theorem Digest.describes (hd : Digest evs info)
    (hhistory : ∀ i < evs.length, s.eventHistory[i]? = evs[i]?) :
    ∃ d, s.dumpOf info = some d ∧ Describes info.currentColl evs d := by
  obtain ⟨out, hout, hmap, hmem⟩ := mapM_start_event s.eventHistory
    info.unfinishedRequests (by
      rintro ⟨req, i⟩ hentry
      obtain ⟨e, he, -⟩ := (hd.unfinished req i).mp hentry
      exact ⟨e, (hhistory i (lt_of_getElem? he)).trans he⟩)
  refine ⟨_, by rw [State.dumpOf, hout]; rfl, ⟨rfl, hd.recvNotified, hd.putFinished, ?_, ?_⟩⟩
  · intro e i
    rw [hmem]
    constructor
    · rintro ⟨he, hi⟩
      obtain ⟨⟨req, i'⟩, hentry, rfl⟩ := List.mem_map.mp hi
      have hun := (hd.unfinished req i').mp hentry
      obtain ⟨e', he', -⟩ := id hun
      exact ⟨(hhistory i' (lt_of_getElem? he')).symm.trans he, req, hun⟩
    · rintro ⟨he, req, hun⟩
      exact ⟨(hhistory i (lt_of_getElem? he)).trans he,
        List.mem_map.mpr ⟨(req, i), (hd.unfinished req i).mpr hun, rfl⟩⟩
  · refine List.Nodup.of_map (·.2) ?_
    rw [hmap]
    exact hd.indices_nodup

/-! ## Runs -/

/-- The vector begins with the events of the collective, if it has any, and the reader has read some
that are published. -/
structure Inv (recordMax : ℕ) (s : State) : Prop where
  idle : s.shouldTrace = false → s.active = none ∧ s.own = []
  history : s.own ≠ [] → s.eventHistory = s.own
  size : s.eventHistorySize = s.published
  storing : ∀ size, s.storing = some size → size = s.own.length ∧ s.own ≠ []
  capacity : s.eventHistory.length ≤ recordMax
  reused : Reused s.own
  active : s.info.currentColl = s.active
  digest : ∃ evs, evs <+: s.own ∧ evs.length ≤ s.published ∧ Digest evs s.info

theorem inv_init : Inv recordMax .init where
  idle := fun _ => ⟨rfl, rfl⟩
  history := fun h => absurd rfl h
  size := rfl
  storing := by simp [State.init]
  capacity := Nat.zero_le _
  reused := reused_nil
  active := rfl
  digest := ⟨[], List.prefix_rfl, Nat.le_refl _, digest_cleared none⟩

theorem published_le (s : State) : s.published ≤ s.own.length := by
  rw [State.published]
  split
  · exact Nat.le_refl _
  · exact Nat.sub_le ..

section

variable (hinv : Inv recordMax s)
include hinv

theorem Inv.history_get (hi : i < s.own.length) : s.eventHistory[i]? = s.own[i]? := by
  have hne : s.own ≠ [] := by
    intro hnil
    simp [hnil] at hi
  rw [hinv.history hne]

theorem Inv.readAll :
    ∃ info, s.readAll = some info ∧ Digest (s.own.take s.published) info ∧
      info.currentColl = s.active := by
  obtain ⟨evs, hshort, hle, hd⟩ := hinv.digest
  obtain ⟨evs', hevs'⟩ : evs <+: s.own.take s.published :=
    List.prefix_take_iff.mpr ⟨hshort, hle⟩
  have hpublished := published_le s
  have hlen : evs.length + evs'.length = s.published := by
    rw [← List.length_append, hevs', List.length_take, Nat.min_eq_left hpublished]
  have hre : Reused (evs ++ evs') := by
    have hown := hinv.reused
    rw [← List.take_append_drop s.published s.own] at hown
    rw [hevs']
    exact hown.of_append
  obtain ⟨info, hread, hdigest, hcoll⟩ := hd.readOn s.eventHistory
    s.eventHistorySize hre (by
      intro i hi
      rw [List.length_append, hlen] at hi
      rw [hevs', List.getElem?_take_of_lt hi]
      exact hinv.history_get (Nat.lt_of_lt_of_le hi hpublished))
    (by rw [List.length_append, hlen, hinv.size])
  refine ⟨info, ?_, hevs' ▸ hdigest, hcoll.trans hinv.active⟩
  rw [State.readAll, hinv.size, hd.readIndex, show s.published - evs.length = evs'.length by omega,
    ← hinv.size]
  exact hread

theorem Inv.collStart (htrace : s.shouldTrace = false)
    (hstoring : s.storing = none) (coll : Option ℕ) : Inv recordMax (s.collStart coll) := by
  obtain ⟨hactive, hown⟩ := hinv.idle htrace
  have hcoll := hinv.active
  rw [hactive] at hcoll
  obtain ⟨evs, hshort, -, hd⟩ := hinv.digest
  rw [hown, List.prefix_nil] at hshort
  subst hshort
  refine ⟨fun h => ?_, fun h => absurd rfl h, ?_, ?_, hinv.capacity, reused_nil, ?_, ?_⟩
  · cases h
  · have hsize := hinv.size
    simpa [State.collStart, State.published, hstoring, hown] using hsize
  · simp [State.collStart, hstoring]
  · simp only [State.collStart, hcoll]
    cases coll <;> simp [hcoll]
  · refine ⟨[], List.prefix_rfl, Nat.zero_le _, ?_⟩
    simp only [State.collStart]
    split
    · exact hd
    · exact ⟨hd.readIndex, hd.recvNotified, hd.putFinished, hd.unfinished, hd.keys⟩

theorem Inv.append (hstoring : s.storing = none)
    (hcount : s.shouldTrace = true → s.own.length < recordMax)
    (hreuse : s.shouldTrace = true → ∀ req, e.startReq = some req → ∀ i, ¬Unfinished s.own req i)
    (hop : Meets s (.append e)) : Inv recordMax (s.append recordMax e) := by
  rw [State.append]
  split
  · exact hinv
  · rename_i hnot
    rw [not_or, Bool.not_eq_false] at hnot
    have hsize := hinv.size
    rw [State.published, if_pos hstoring] at hsize
    have hhistory : s.eventHistory = s.own := by
      have hlen := hop hnot.1
      by_cases hnil : s.own = []
      · rw [hnil]
        rw [hnil, List.length_nil] at hsize
        exact List.eq_nil_of_length_eq_zero (hlen.trans hsize)
      · exact hinv.history hnil
    obtain ⟨evs, hshort, hle, hd⟩ := hinv.digest
    have hpublished : s.published = s.own.length := by rw [State.published, if_pos hstoring]
    refine ⟨fun h => ?_, fun _ => by rw [hhistory], ?_, ?_, ?_, ?_, hinv.active, ?_⟩
    · rw [hnot.1] at h
      cases h
    · simp [State.published, hsize]
    · intro size h
      cases h
      exact ⟨by simp [hsize], by simp⟩
    · rw [hhistory, List.length_append]
      exact hcount hnot.1
    · exact hinv.reused.concat (hreuse hnot.1)
    · rw [hpublished] at hle
      exact ⟨evs, hshort.trans (List.prefix_append ..), by simpa [State.published] using hle, hd⟩

theorem Inv.publish (hstoring : s.storing = some size) : Inv recordMax (s.publish size) := by
  obtain ⟨evs, hshort, hle, hd⟩ := hinv.digest
  obtain ⟨hsize, -⟩ := hinv.storing size hstoring
  refine ⟨hinv.idle, hinv.history, ?_, ?_, hinv.capacity, hinv.reused, hinv.active, ?_⟩
  · simpa [State.publish, State.published] using hsize
  · simp [State.publish]
  · exact ⟨evs, hshort, by simpa [State.publish, State.published] using hshort.length_le, hd⟩

theorem Inv.collEnd (hstoring : s.storing = none) : Inv recordMax s.collEnd where
  idle := fun _ => ⟨rfl, rfl⟩
  history := fun h => absurd rfl h
  size := by simp [State.collEnd, State.published]
  storing := by simp [State.collEnd, hstoring]
  capacity := hinv.capacity
  reused := reused_nil
  active := rfl
  digest := ⟨[], List.prefix_rfl, Nat.zero_le _, digest_cleared none⟩

theorem Inv.dump (hread : s.readAll = some info) : Inv recordMax { s with info := info } := by
  obtain ⟨info', hread', hd, hcoll⟩ := hinv.readAll
  obtain rfl := Option.some.inj (hread.symm.trans hread')
  exact
    { __ := hinv
      active := hcoll
      digest := ⟨_, List.take_prefix .., List.length_take_le .., hd⟩ }

end

theorem reachable_inv (h : Reachable recordMax Meets s) : Inv recordMax s := by
  induction h with
  | init => exact inv_init
  | step _ hstep hop ih =>
    cases hstep with
    | collStart coll htrace hstoring => exact ih.collStart htrace hstoring coll
    | append event hstoring hcount hreuse => exact ih.append hstoring hcount hreuse hop
    | publish size hstoring => exact ih.publish hstoring
    | collEnd _ hstoring => exact ih.collEnd hstoring
    | dump info hread => exact ih.dump hread

theorem trace_sound (h : Reachable recordMax Meets s) : Sound recordMax s := by
  have hinv := reachable_inv h
  have hpublished := published_le s
  refine ⟨fun i hi => ?_, hinv.capacity, ?_⟩
  · rw [hinv.size] at hi
    exact hinv.history_get (Nat.lt_of_lt_of_le hi hpublished)
  · obtain ⟨info, hread, hd, hcoll⟩ := hinv.readAll
    obtain ⟨d, hdump, hdescribes⟩ := hd.describes (s := s) (by
      intro i hi
      rw [List.length_take, Nat.min_eq_left hpublished] at hi
      rw [List.getElem?_take_of_lt hi]
      exact hinv.history_get (Nat.lt_of_lt_of_le hi hpublished))
    refine ⟨info, d, hread, hdump, _, List.take_prefix .., ?_, hcoll ▸ hdescribes⟩
    rw [List.length_take, Nat.min_eq_left hpublished]

/-- A first collective that has started a request. -/
theorem trace_sound_one :
    Sound 8 (((State.init.collStart (some 1)).append 8 (.sendSyncCtrlStart 3 (some 64))).publish
      1) :=
  trace_sound
    (.step (.step (.step .init (.collStart (some 1) rfl rfl) trivial)
      (.append (.sendSyncCtrlStart 3 (some 64)) rfl (fun _ => by decide)
        (by simp [State.init, State.collStart, Unfinished])) fun _ => rfl)
      (.publish 1 rfl) trivial)

/-- The second collective is published from where the vector begins, with an event of the first. -/
theorem not_sound_second :
    ∃ s, Reachable 8 (fun _ _ => True) s ∧ s.active = some 2 ∧ s.own = [.recvNotified 5] ∧
      s.eventHistory = [.recvNotified 3, .recvNotified 5] ∧ s.eventHistorySize = 1 ∧
      ¬Sound 8 s := by
  have hfirst : Reachable 8 (fun _ _ => True)
      (((State.init.collStart (some 1)).append 8 (.recvNotified 3)).publish 1) :=
    .step (.step (.step .init (.collStart (some 1) rfl rfl) trivial)
      (.append _ rfl (fun _ => by decide) fun _ req h => by cases h) trivial)
      (.publish 1 rfl) trivial
  have hsecond : Reachable 8 (fun _ _ => True)
      ((((State.init.collStart (some 1)).append 8 (.recvNotified 3)).publish 1).collEnd.collStart
        (some 2)) :=
    .step (.step hfirst (.collEnd rfl rfl) trivial) (.collStart (some 2) rfl rfl) trivial
  refine ⟨_, .step (.step hsecond (.append (.recvNotified 5) rfl (fun _ => by decide)
    fun _ req h => by cases h) trivial) (.publish 1 rfl) trivial, rfl, rfl, rfl, rfl, ?_⟩
  intro hsound
  have hread := hsound.reads 0 (by decide)
  revert hread
  decide

end TorchComms.Mapper.Trace
