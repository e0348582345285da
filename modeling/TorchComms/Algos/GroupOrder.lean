import TorchComms.Algos.GroupSendRecv
import Mathlib.Data.List.Nodup
import Mathlib.Data.List.Range

/-! # The order of grouped operations

The operations of one kind with one peer are numbered in the order of the calls, and executed in the
order of the commands. What a group asks for is right when both ends execute the operations between
them in the same order, and no command waits in a circle.
-/
namespace TorchComms.Algos.GroupSendRecv

/-! ### Numbering -/

theorem number_map (seen group : List OpElem) :
    (number seen group).map GroupOp.toOpElem = group := by
  induction group generalizing seen with
  | nil => rfl
  | cons op rest ih => rw [number, List.map_cons, ih]

variable {group : List OpElem} {type : OpType} {peer : ℕ}

theorem OpElem.is_iff {op : OpElem} :
    op.Is type peer = true ↔ op.type = type ∧ op.peerRank = peer := by
  simp [OpElem.Is]

theorem OpElem.is_self (op : OpElem) : op.Is op.type op.peerRank = true :=
  OpElem.is_iff.mpr ⟨rfl, rfl⟩

theorem map_ordinal (type : OpType) (peer : ℕ) (seen group : List OpElem) :
    ((number seen group).filter fun op => op.Is type peer).map GroupOp.ordinal =
      List.range' (seen.countP (OpElem.Is type peer))
        (group.filter (OpElem.Is type peer)).length := by
  induction group generalizing seen with
  | nil => rfl
  | cons op rest ih =>
    have hrest := ih (seen ++ [op])
    rw [List.countP_append, List.countP_singleton] at hrest
    by_cases his : op.Is type peer = true
    · obtain ⟨rfl, rfl⟩ := OpElem.is_iff.mp his
      rw [if_pos his] at hrest
      simp only [number, List.filter_cons, his, if_true, List.map_cons, List.length_cons,
        List.range'_succ, hrest]
    · rw [if_neg his] at hrest
      simpa [number, List.filter_cons, his] using hrest

variable {op : GroupOp}

theorem le_ordinal {seen group : List OpElem} (h : op ∈ number seen group) :
    seen.countP (OpElem.Is op.type op.peerRank) ≤ op.ordinal := by
  have hmem : op.ordinal ∈ ((number seen group).filter fun o =>
      o.Is op.type op.peerRank).map GroupOp.ordinal :=
    List.mem_map_of_mem (List.mem_filter.mpr ⟨h, op.is_self⟩)
  rw [map_ordinal] at hmem
  exact (List.mem_range'_1.mp hmem).1

theorem number_nodup (seen group : List OpElem) : (number seen group).Nodup := by
  induction group generalizing seen with
  | nil => exact List.nodup_nil
  | cons op rest ih =>
    rw [number, List.nodup_cons]
    refine ⟨fun hmem => ?_, ih _⟩
    have hle := le_ordinal hmem
    rw [List.countP_append, List.countP_singleton, if_pos op.is_self] at hle
    exact absurd hle (Nat.not_succ_le_self _)

theorem getElem?_ordinal
    (h : op ∈ number [] group) (his : op.Is type peer = true) :
    (group.filter (OpElem.Is type peer))[op.ordinal]? = some op.toOpElem := by
  have hmem : op ∈ (number [] group).filter fun o => o.Is type peer :=
    List.mem_filter.mpr ⟨h, his⟩
  obtain ⟨k, hk⟩ := List.getElem?_of_mem hmem
  have hordinal : op.ordinal = k := by
    have hmap := congrArg (fun l : List ℕ => l[k]?) (map_ordinal type peer [] group)
    simp only [List.getElem?_map, hk, Option.map_some] at hmap
    rw [eq_comm, List.getElem?_eq_some_iff] at hmap
    obtain ⟨hlt, hval⟩ := hmap
    rw [List.getElem_range'] at hval
    simpa using hval.symm
  have hgroup : group.filter (OpElem.Is type peer) =
      ((number [] group).filter fun o => o.Is type peer).map GroupOp.toOpElem := by
    conv_lhs => rw [← number_map [] group, List.filter_map]
    rfl
  rw [hgroup, List.getElem?_map, hordinal, hk]
  rfl

/-! ### Batches -/

theorem cut_perm (n : ℕ) (l : List GroupOp) (h : l.length ≤ n) : (cut n l).flatten.Perm l := by
  induction n generalizing l with
  | zero => rw [List.length_eq_zero_iff.mp (Nat.le_zero.mp h)]; rfl
  | succ n ih =>
    cases l with
    | nil => rfl
    | cons op rest =>
      have hlen : ((op :: rest).filter fun o => o.stream ≠ op.stream).length ≤ n := by
        rw [List.filter_cons_of_neg (by simp)]
        exact (List.length_filter_le _ _).trans (Nat.le_of_succ_le_succ h)
      rw [cut, List.flatten_cons]
      refine ((ih _ hlen).append_left _).trans ?_
      have hneg : (op :: rest).filter (fun o => o.stream ≠ op.stream) =
          (op :: rest).filter fun o => !decide (o.stream = op.stream) := by
        simp
      rw [hneg]
      exact List.filter_append_perm _ _

theorem batches_perm (group : List OpElem) : (batches group).flatten.Perm (number [] group) := by
  apply cut_perm
  rw [← List.length_map, number_map]

/-- In each batch, the operations to the own rank are the same ones on both sides. -/
def SelfPaired (rank : ℕ) (bs : List (List GroupOp)) : Prop :=
  ∀ batch ∈ bs, (selfSends rank batch).map GroupOp.ordinal =
    (selfRecvs rank batch).map GroupOp.ordinal

variable {rank : ℕ} {bs : List (List GroupOp)}

theorem selfImpl_of_paired {batch : List GroupOp}
    (h : (selfSends rank batch).map GroupOp.ordinal = (selfRecvs rank batch).map GroupOp.ordinal) :
    sendRecvSelfImpl (selfSends rank batch) (selfRecvs rank batch) =
      some ((selfSends rank batch).zip (selfRecvs rank batch)) := by
  have hlen := congrArg List.length h
  rw [List.length_map, List.length_map] at hlen
  rw [sendRecvSelfImpl, if_neg (not_not_intro hlen)]

theorem eq_of_mem_zip {l l' : List GroupOp} {p : GroupOp × GroupOp}
    (h : l.map GroupOp.ordinal = l'.map GroupOp.ordinal) (hp : p ∈ l.zip l') :
    p.1.ordinal = p.2.ordinal := by
  induction l generalizing l' with
  | nil => exact absurd hp List.not_mem_nil
  | cons op l ih =>
    cases l' with
    | nil => exact absurd hp List.not_mem_nil
    | cons rop l' =>
      rw [List.map_cons, List.map_cons, List.cons.injEq] at h
      rcases List.mem_cons.mp hp with rfl | hp
      · exact h.1
      · exact ih h.2 hp

theorem SelfPaired.success (h : SelfPaired rank bs) :
    (ctranGroupEndHook rank bs).result = .commSuccess := by
  induction bs with
  | nil => rfl
  | cons batch rest ih =>
    rw [ctranGroupEndHook, selfImpl_of_paired (h batch List.mem_cons_self)]
    exact ih fun b hb => h b (List.mem_cons_of_mem _ hb)

theorem SelfPaired.copies (h : SelfPaired rank bs) :
    (ctranGroupEndHook rank bs).copies.map Prod.fst = selfSends rank bs.flatten ∧
      (ctranGroupEndHook rank bs).copies.map Prod.snd = selfRecvs rank bs.flatten ∧
      ∀ p ∈ (ctranGroupEndHook rank bs).copies, p.1.ordinal = p.2.ordinal := by
  induction bs with
  | nil => exact ⟨rfl, rfl, nofun⟩
  | cons batch rest ih =>
    obtain ⟨hfst, hsnd, hsame⟩ := ih fun b hb => h b (List.mem_cons_of_mem _ hb)
    have hbatch := h batch List.mem_cons_self
    have hlen := congrArg List.length hbatch
    rw [List.length_map, List.length_map] at hlen
    rw [ctranGroupEndHook, selfImpl_of_paired hbatch]
    refine ⟨?_, ?_, ?_⟩
    · simp only [List.map_append, hfst, List.map_fst_zip (Nat.le_of_eq hlen)]
      exact (List.filter_append _ _).symm
    · simp only [List.map_append, hsnd, List.map_snd_zip (Nat.le_of_eq hlen.symm)]
      exact (List.filter_append _ _).symm
    · intro p hp
      rcases List.mem_append.mp hp with hp | hp
      · exact eq_of_mem_zip hbatch hp
      · exact hsame p hp

theorem SelfPaired.commands (h : SelfPaired rank bs) :
    (ctranGroupEndHook rank bs).commands.flatten = allOps rank bs.flatten := by
  induction bs with
  | nil => rfl
  | cons batch rest ih =>
    have hrest := ih fun b hb => h b (List.mem_cons_of_mem _ hb)
    rw [ctranGroupEndHook, selfImpl_of_paired (h batch List.mem_cons_self)]
    have hsplit : allOps rank (batch :: rest).flatten =
        allOps rank batch ++ allOps rank rest.flatten := List.filter_append _ _
    rw [hsplit, ← hrest]
    by_cases hempty : (allOps rank batch).isEmpty = true
    · rw [List.isEmpty_iff.mp hempty]
      rfl
    · simp only [if_neg hempty, List.flatten_cons]

/-! ### What is asked of the groups -/

section Commands

variable (commands : ℕ → List (List GroupOp))

/-- The sends of `a` to `b`, in the order in which they are executed. -/
def sendsTo (a b : ℕ) : List GroupOp := (commands a).flatten.filter fun op => op.Is .SEND b

/-- The receives of `a` from `b`, in the order in which they are executed. -/
def recvsFrom (a b : ℕ) : List GroupOp := (commands a).flatten.filter fun op => op.Is .RECV b

/-- Both ends execute the operations between them in the same order. -/
def InOrder : Prop :=
  ∀ a b, (sendsTo commands a b).map GroupOp.ordinal = (recvsFrom commands b a).map GroupOp.ordinal

/-- The commands can be put on levels that rise along each rank, so that a command with one end of
a transfer lies below the command after the one with the other end. -/
structure Leveled (level : ℕ → ℕ → ℕ) : Prop where
  mono : ∀ a i, level a i ≤ level a (i + 1)
  lt : ∀ {a i b j : ℕ} {op rop : GroupOp}, op ∈ commandAt commands a i →
    rop ∈ commandAt commands b j → op.peerRank = b → rop.peerRank = a → op.type ≠ rop.type →
    op.ordinal = rop.ordinal → level b j < level a (i + 1)

end Commands

/-- The commands that the hooks of all ranks submit. -/
def commandsOf (groups : ℕ → List OpElem) (a : ℕ) : List (List GroupOp) :=
  (ctranGroupEndHook a (batches (groups a))).commands

/-- The `k`-th send and the `k`-th receive between two ranks have equal byte counts. -/
def Matched (groups : ℕ → List OpElem) : Prop :=
  ∀ a b, ((groups a).filter (OpElem.Is .SEND b)).map OpElem.nbytes =
    ((groups b).filter (OpElem.Is .RECV a)).map OpElem.nbytes

/-- How the ranks assign streams. -/
structure Agreed (groups : ℕ → List OpElem) : Prop where
  self : ∀ a, SelfPaired a (batches (groups a))
  order : InOrder (commandsOf groups)
  acyclic : ∃ level, Leveled (commandsOf groups) level

variable {groups : ℕ → List OpElem}

theorem nbytes_eq (h : Matched groups) {a b : ℕ} {op rop : GroupOp}
    (hop : op ∈ number [] (groups a)) (hrop : rop ∈ number [] (groups b))
    (hsend : op.Is .SEND b = true) (hrecv : rop.Is .RECV a = true)
    (hordinal : op.ordinal = rop.ordinal) : op.nbytes = rop.nbytes := by
  have hbytes := congrArg (fun l : List ℕ => l[op.ordinal]?) (h a b)
  simp only [List.getElem?_map] at hbytes
  rw [getElem?_ordinal hop hsend, hordinal, getElem?_ordinal hrop hrecv] at hbytes
  exact Option.some.inj hbytes

theorem Agreed.mem_commands (h : Agreed groups) {a : ℕ} :
    op ∈ (commandsOf groups a).flatten ↔ op ∈ number [] (groups a) ∧ op.peerRank ≠ a := by
  rw [commandsOf, (h.self a).commands, allOps, List.mem_filter, (batches_perm _).mem_iff,
    decide_eq_true_eq]

theorem Agreed.nodup (h : Agreed groups) (a : ℕ) : (commandsOf groups a).flatten.Nodup := by
  rw [commandsOf, (h.self a).commands]
  exact ((batches_perm _).nodup_iff.mpr (number_nodup [] _)).filter _

/-! ### One stream on each rank -/

theorem cut_single {st n : ℕ} {l : List GroupOp} (h : ∀ op ∈ l, op.stream = st)
    (hn : l.length ≤ n) : cut n l = if l = [] then [] else [l] := by
  cases n with
  | zero =>
    rw [List.length_eq_zero_iff.mp (Nat.le_zero.mp hn)]
    rfl
  | succ n =>
    cases l with
    | nil => rfl
    | cons op rest =>
      have hop := h op List.mem_cons_self
      have hall : (op :: rest).filter (fun o => o.stream = op.stream) = op :: rest := by
        rw [List.filter_eq_self]
        intro o ho
        simp [h o ho, hop]
      have hnone : (op :: rest).filter (fun o => o.stream ≠ op.stream) = [] := by
        rw [List.filter_eq_nil_iff]
        intro o ho
        simp [h o ho, hop]
      rw [cut, hall, hnone, if_neg (List.cons_ne_nil _ _)]
      cases n <;> rfl

theorem batches_single {st : ℕ} (h : ∀ op ∈ group, op.stream = st) :
    batches group = if number [] group = [] then [] else [number [] group] := by
  have hmap := number_map [] group
  have hstream : ∀ op ∈ number [] group, op.stream = st := by
    intro op hop
    apply h op.toOpElem
    rw [← hmap]
    exact List.mem_map_of_mem hop
  apply cut_single hstream
  conv_rhs => rw [← hmap, List.length_map]

theorem commands_length (rank : ℕ) (bs : List (List GroupOp)) :
    (ctranGroupEndHook rank bs).commands.length ≤ bs.length := by
  induction bs with
  | nil => exact Nat.le_refl _
  | cons batch rest ih =>
    rw [ctranGroupEndHook]
    cases sendRecvSelfImpl (selfSends rank batch) (selfRecvs rank batch) with
    | none => exact Nat.zero_le _
    | some pairs =>
      dsimp only
      split
      · exact Nat.le_succ_of_le ih
      · exact Nat.succ_le_succ ih

theorem filter_allOps (rank : ℕ) (type : OpType) (b : ℕ) (l : List GroupOp) :
    (allOps rank l).filter (fun op => op.Is type b) =
      if b = rank then [] else l.filter fun op => op.Is type b := by
  unfold allOps
  rw [List.filter_filter]
  split
  · rename_i hb
    rw [List.filter_eq_nil_iff]
    intro op _
    simp [OpElem.Is, hb]
  · rename_i hb
    apply List.filter_congr
    intro op _
    by_cases his : op.Is type b = true
    · simp [his, (OpElem.is_iff.mp his).2, hb]
    · simp [his]

theorem agreed_of_single (hmatched : Matched groups) (stream : ℕ → ℕ)
    (h : ∀ a, ∀ op ∈ groups a, op.stream = stream a) : Agreed groups := by
  have hlength : ∀ a b, ((groups a).filter (OpElem.Is .SEND b)).length =
      ((groups b).filter (OpElem.Is .RECV a)).length := by
    intro a b
    have hlen := congrArg List.length (hmatched a b)
    rwa [List.length_map, List.length_map] at hlen
  have hself : ∀ a, SelfPaired a (batches (groups a)) := by
    intro a batch hbatch
    rw [batches_single (h a)] at hbatch
    split at hbatch
    · exact absurd hbatch List.not_mem_nil
    · rw [List.mem_singleton.mp hbatch]
      unfold selfSends selfRecvs
      rw [map_ordinal, map_ordinal, hlength]
      rfl
  have hflatten : ∀ a, (batches (groups a)).flatten = number [] (groups a) := by
    intro a
    rw [batches_single (h a)]
    split
    · rename_i hnil
      exact hnil.symm
    · exact List.append_nil _
  refine ⟨hself, fun a b => ?_, fun _ i => i, fun _ i => Nat.le_succ i, ?_⟩
  · unfold sendsTo recvsFrom commandsOf
    rw [(hself a).commands, (hself b).commands, hflatten, hflatten, filter_allOps, filter_allOps]
    by_cases hab : b = a
    · rw [if_pos hab, if_pos hab.symm, List.map_nil]
    · rw [if_neg hab, if_neg (Ne.symm hab), map_ordinal, map_ordinal, hlength]
      rfl
  · intro a i b j op rop _ hrop _ _ _ _
    have hone : (commandsOf groups b).length ≤ 1 := by
      apply (commands_length b _).trans
      rw [batches_single (h b)]
      split
      · exact Nat.zero_le _
      · exact Nat.le_refl _
    have hj : j < (commandsOf groups b).length := by
      by_contra hge
      rw [commandAt, List.getElem?_eq_none (Nat.le_of_not_lt hge)] at hrop
      exact List.not_mem_nil hrop
    omega

end TorchComms.Algos.GroupSendRecv
