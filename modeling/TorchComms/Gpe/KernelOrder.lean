import TorchComms.CommSpecs
import TorchComms.Foundation.Streams

/-! # The order of the kernels across streams

Each submit chains its kernel through an internal stream. The wait for the earlier kernels is left
out when the stream's handle is the one that was used last.
-/
namespace TorchComms.Gpe

open Foundation Function

/-- What the CUDA calls of one `submit` return. `prepared` stands for the steps before
`preKernelLaunch`. -/
structure LaunchAnswers where
  prepared : CommResult
  preRecord : CommResult
  preWait : CommResult
  launch : CommResult
  postRecord : CommResult
  postWait : CommResult
  deriving DecidableEq, Repr

/-- The part of `CtranGpe::Impl` that orders kernels, with the streams of the device: `none` is
`execOrderStream_`, user streams and kernels are numbered as they are created and launched.

A history that nothing reads: the kernels whose `submit` succeeded, the stream that was put behind
the earlier kernels when `lastUserStream_` was last set, and the stream of a launched kernel that
`execOrderStream_` does not wait for. -/
structure KernelOrder where
  device : Device (Option ℕ) ℕ
  records : ℕ
  created : ℕ
  handle : ℕ → ℕ
  live : ℕ → Bool
  lastUserStream_ : ℕ
  launched : ℕ
  succeeded : ℕ → Bool
  behind : Option ℕ
  loose : Option ℕ

namespace KernelOrder

/-- `lastUserStream_` is not initialised. -/
def init (lastUserStream : ℕ) : KernelOrder where
  device := ⟨fun _ => [], fun _ => false, fun _ => false⟩
  records := 0
  created := 0
  handle := fun _ => 0
  live := fun _ => false
  lastUserStream_ := lastUserStream
  launched := 0
  succeeded := fun _ => false
  behind := none
  loose := none

def push (s : KernelOrder) (v : Option ℕ) (item : StreamItem ℕ) : KernelOrder :=
  { s with device := s.device.push v item }

/-- `cudaEventRecord(event, prevStream)`, then `cudaStreamWaitEvent(curStream, event)` -/
def streamWaitStream (s : KernelOrder) (curStream prevStream : Option ℕ)
    (record wait : CommResult) : CommResult × KernelOrder :=
  if record ≠ .commSuccess then (record, s)
  else
    let recorded := { s.push prevStream (.record s.records) with records := s.records + 1 }
    if wait ≠ .commSuccess then (wait, recorded)
    else (.commSuccess, recorded.push curStream (.wait s.records))

def preKernelLaunch (s : KernelOrder) (curStream : ℕ) (a : LaunchAnswers) :
    CommResult × KernelOrder :=
  if s.handle curStream = s.lastUserStream_ then (.commSuccess, s)
  else
    let r := streamWaitStream { s with lastUserStream_ := s.handle curStream, behind := none }
      (some curStream) none a.preRecord a.preWait
    if r.1 = .commSuccess then (r.1, { r.2 with behind := some curStream }) else r

def launchKernel (s : KernelOrder) (stream : ℕ) : KernelOrder :=
  { s.push (some stream) (.kernel s.launched) with
    launched := s.launched + 1
    behind := some stream
    loose := some stream }

def postKernelLaunch (s : KernelOrder) (curStream : ℕ) (a : LaunchAnswers) :
    CommResult × KernelOrder :=
  let r := s.streamWaitStream none (some curStream) a.postRecord a.postWait
  if r.1 = .commSuccess then (r.1, { r.2 with loose := none }) else r

/-- A submit that is not captured into a graph. -/
def submit (s : KernelOrder) (stream : ℕ) (a : LaunchAnswers) : CommResult × KernelOrder :=
  if a.prepared ≠ .commSuccess then (a.prepared, s)
  else
    let pre := s.preKernelLaunch stream a
    if pre.1 ≠ .commSuccess then pre
    else if a.launch ≠ .commSuccess then (a.launch, pre.2)
    else
      let post := (pre.2.launchKernel stream).postKernelLaunch stream a
      if post.1 ≠ .commSuccess then post
      else (.commSuccess,
        { post.2 with succeeded := update post.2.succeeded pre.2.launched true })

inductive Op
  | createStream (handle : ℕ)
  | destroyStream (stream : ℕ)
  | userWork (stream : ℕ)
  | submit (stream : ℕ) (answers : LaunchAnswers)
  | device
  deriving DecidableEq

/-- A new stream gets a handle that no live stream has. A destroyed stream is worked off. -/
inductive Step (s : KernelOrder) : Op → KernelOrder → Prop
  | createStream (h : ℕ) (hfree : ∀ u, s.live u = true → s.handle u ≠ h) :
      Step s (.createStream h)
        { s with
          created := s.created + 1
          handle := update s.handle s.created h
          live := update s.live s.created true }
  | destroyStream (u : ℕ) (hu : s.live u = true) :
      Step s (.destroyStream u) { s with live := update s.live u false }
  | userWork (u : ℕ) (hu : s.live u = true) : Step s (.userWork u) (s.push (some u) .other)
  | submit (u : ℕ) (a : LaunchAnswers) (hu : s.live u = true) :
      Step s (.submit u a) (s.submit u a).2
  | device (d : Device (Option ℕ) ℕ) (h : s.device.Step d) : Step s .device { s with device := d }

/-- The states of the runs whose steps all meet a condition. -/
inductive Reachable (cond : KernelOrder → Op → Prop) (lastUserStream : ℕ) : KernelOrder → Prop
  | init : Reachable cond lastUserStream (init lastUserStream)
  | step {s s' : KernelOrder} {op : Op} (h : Reachable cond lastUserStream s)
      (hstep : s.Step op s') (hop : cond s op) : Reachable cond lastUserStream s'

/-- The kernels that the later ones are to come after: those whose submit succeeded, or also those
that were launched by a submit which returned an error. -/
def Counts (s : KernelOrder) (withFailed : Bool) (k : ℕ) : Prop :=
  withFailed = true ∨ s.succeeded k = true

/-- A kernel that has started has done so after the earlier ones had finished. -/
def InSubmissionOrder (s : KernelOrder) (withFailed : Bool) : Prop :=
  ∀ k, s.device.started k = true → ∀ j < k, s.Counts withFailed j → s.device.finished j = true

/-- The wait is left out only for the very stream that was put behind the earlier kernels, or before
any kernel was launched. Where the kernels of failed submits count as well, the streams do not change
after such a kernel until a submit succeeds. -/
def Meets (withFailed : Bool) (s : KernelOrder) : Op → Prop
  | .submit u _ =>
    (s.handle u = s.lastUserStream_ → s.launched = 0 ∨ s.behind = some u) ∧
      (withFailed = true → ∀ v, s.loose = some v → v = u)
  | _ => True

variable {s s' : KernelOrder} {withFailed : Bool} {u k : ℕ} {a : LaunchAnswers} {op : Op}

/-! ## What the streams keep in order -/

/-- The stream that all kernels that count are chained to: the internal one, or that of a kernel
which the internal one does not wait for. -/
def home (s : KernelOrder) (withFailed : Bool) : Option ℕ := if withFailed then s.loose else none

/-- What comes next in the stream starts after all kernels that count. -/
def AllBefore (s : KernelOrder) (withFailed : Bool) (v : Option ℕ) : Prop :=
  ∀ k < s.launched, s.Counts withFailed k → s.device.Covered k (s.device.queue v)

structure Inv (s : KernelOrder) (withFailed : Bool) : Prop where
  ordered : s.device.Ordered fun j k => j < k ∧ s.Counts withFailed j
  queued_lt : ∀ v k, .kernel k ∈ s.device.queue v → k < s.launched
  started_lt : ∀ k, s.device.started k = true → k < s.launched
  succeeded_lt : ∀ k, s.succeeded k = true → k < s.launched
  live_lt : ∀ v, s.live v = true → v < s.created
  home : s.AllBefore withFailed (s.home withFailed)
  behind : ∀ v, s.behind = some v → s.AllBefore withFailed (some v)
  loose : withFailed = true → ∀ v, s.loose = some v →
    v < s.created ∧ s.behind = some v ∧ s.lastUserStream_ = s.handle v

theorem inv_init (lastUserStream : ℕ) : (init lastUserStream).Inv withFailed where
  ordered := ⟨by simp [init], by simp [init]⟩
  queued_lt := by simp [init]
  started_lt := by simp [init]
  succeeded_lt := by simp [init]
  live_lt := by simp [init]
  home := fun k hk => absurd hk (Nat.not_lt_zero k)
  behind := by simp [init]
  loose := by simp [init]

section

variable (h : s.Inv withFailed)
include h

theorem Inv.inSubmissionOrder : s.InSubmissionOrder withFailed :=
  fun k hk j hjk hj => h.ordered.started k hk j ⟨hjk, hj⟩

theorem Inv.createStream (hd : ℕ) :
    { s with
      created := s.created + 1
      handle := update s.handle s.created hd
      live := update s.live s.created true }.Inv withFailed where
  __ := h
  live_lt := by
    intro v hv
    change v < s.created + 1
    by_cases heq : v = s.created
    · omega
    · exact Nat.lt_succ_of_lt (h.live_lt v (by simpa [heq] using hv))
  loose := by
    intro hwf v hv
    obtain ⟨hlt, hbehind, hlast⟩ := h.loose hwf v hv
    exact ⟨Nat.lt_succ_of_lt hlt, hbehind, by simpa [Nat.ne_of_lt hlt] using hlast⟩

theorem Inv.destroyStream (u : ℕ) : { s with live := update s.live u false }.Inv withFailed :=
  { h with
    live_lt := by
      intro v hv
      by_cases heq : v = u
      · simp [heq] at hv
      · exact h.live_lt v (by simpa [heq] using hv) }

theorem Inv.device {d : Device (Option ℕ) ℕ} (hstep : s.device.Step d) :
    { s with device := d }.Inv withFailed where
  ordered := h.ordered.step hstep
  queued_lt := by
    intro v k hk
    rcases hstep.cases_queue with ⟨hqueue, -⟩ | ⟨w, x, rest, hw, hqueue, -⟩
    · exact h.queued_lt v k (hqueue ▸ hk)
    · rw [hqueue] at hk
      by_cases hvw : v = w
      · subst hvw
        rw [update_self] at hk
        exact h.queued_lt v k (by simp [hw, hk])
      · rw [update_of_ne hvw] at hk
        exact h.queued_lt v k hk
  started_lt := by
    intro k hk
    cases hstep with
    | start v k' rest hq =>
      by_cases heq : k = k'
      · exact h.queued_lt v k (by simp [hq, heq])
      · exact h.started_lt k (by simpa [heq] using hk)
    | finish v k' rest hq hk' => exact h.started_lt k hk
    | record v n rest hq => exact h.started_lt k hk
    | wait v n rest hq hn => exact h.started_lt k hk
    | other v rest hq => exact h.started_lt k hk
  __ := h
  home := fun k hk hc => (h.home k hk hc).step_queue hstep
  behind := fun v hv k hk hc => (h.behind v hv k hk hc).step_queue hstep

theorem Inv.push (v : Option ℕ) {item : StreamItem ℕ}
    (hitem : ∀ k, item ≠ .kernel k) : (s.push v item).Inv withFailed where
  ordered := h.ordered.push v item fun k hk => absurd hk (hitem k)
  queued_lt := by
    intro w k hk
    change .kernel k ∈ (s.device.push v item).queue w at hk
    by_cases hw : w = v
    · subst hw
      rw [Device.push_queue_self, List.mem_append, List.mem_singleton] at hk
      exact h.queued_lt w k (hk.resolve_right fun heq => hitem k heq.symm)
    · rw [Device.push_queue_of_ne hw] at hk
      exact h.queued_lt w k hk
  __ := h
  home := fun k hk hc => (h.home k hk hc).push_queue v item
  behind := fun w hw k hk hc => (h.behind w hw k hk hc).push_queue v item

theorem Inv.countRecord (n : ℕ) : { s with records := n }.Inv withFailed :=
  ⟨h.ordered, h.queued_lt, h.started_lt, h.succeeded_lt, h.live_lt, h.home, h.behind, h.loose⟩

/-- One stream comes behind all that another is behind of, if no call fails. Only the device's
queues and the count of the records change. -/
theorem Inv.streamWaitStream (cur prev : Option ℕ) (record wait : CommResult) :
    ∃ d n, (s.streamWaitStream cur prev record wait).2 = { s with device := d, records := n } ∧
      { s with device := d, records := n }.Inv withFailed ∧
      (∀ k v, s.device.Covered k (s.device.queue v) → d.Covered k (d.queue v)) ∧
      ((s.streamWaitStream cur prev record wait).1 = .commSuccess →
        ∀ k, s.device.Covered k (s.device.queue prev) → d.Covered k (d.queue cur)) := by
  unfold KernelOrder.streamWaitStream
  by_cases hrecord : record = .commSuccess
  · have hinv : { s.push prev (.record s.records) with records := s.records + 1 }.Inv withFailed :=
      (h.push prev (by simp)).countRecord _
    by_cases hwait : wait = .commSuccess
    · rw [if_neg (not_not.2 hrecord)]
      dsimp only
      rw [if_neg (not_not.2 hwait)]
      refine ⟨_, _, rfl, hinv.push cur (by simp), ?_, ?_⟩
      · intro k v hk
        exact (hk.push_queue prev _).push_queue cur _
      · intro _ k hk
        exact hk.wait s.records
    · rw [if_neg (not_not.2 hrecord)]
      dsimp only
      rw [if_pos hwait]
      exact ⟨_, _, rfl, hinv, fun k v hk => hk.push_queue prev _, fun heq => absurd heq hwait⟩
  · rw [if_pos hrecord]
    exact ⟨_, _, rfl, h, fun _ _ hk => hk, fun heq => absurd heq hrecord⟩

/-- The stream comes behind the kernels that count, unless the submit ends with an error. -/
theorem Inv.preKernelLaunch (hu : s.live u = true) (hmeets : s.Meets withFailed (.submit u a)) :
    (s.preKernelLaunch u a).2.Inv withFailed ∧
      ((s.preKernelLaunch u a).1 = .commSuccess →
        (s.preKernelLaunch u a).2.AllBefore withFailed (some u) ∧
        (s.preKernelLaunch u a).2.live u = true ∧
        (s.preKernelLaunch u a).2.lastUserStream_ = (s.preKernelLaunch u a).2.handle u) := by
  obtain ⟨hfast, hloose⟩ := hmeets
  unfold KernelOrder.preKernelLaunch
  by_cases hhandle : s.handle u = s.lastUserStream_
  · rw [if_pos hhandle]
    refine ⟨h, fun _ => ⟨?_, hu, hhandle.symm⟩⟩
    rcases hfast hhandle with hzero | hbehind
    · intro k hk
      change k < s.launched at hk
      omega
    · exact h.behind u hbehind
  · rw [if_neg hhandle]
    -- a kernel that is only in its own stream keeps the submits there
    have hnone : withFailed = true → s.loose = none := by
      intro hwf
      by_contra hne
      obtain ⟨v, hv⟩ := Option.ne_none_iff_exists'.1 hne
      obtain ⟨-, -, hlast⟩ := h.loose hwf v hv
      rw [hloose hwf v hv] at hlast
      exact hhandle hlast.symm
    have hhome : s.home withFailed = none := by
      unfold KernelOrder.home
      split
      · exact hnone ‹_›
      · rfl
    have hset : { s with lastUserStream_ := s.handle u, behind := none }.Inv withFailed :=
      { h with
        behind := nofun
        loose := by
          intro hwf v hv
          rw [show s.loose = none from hnone hwf] at hv
          cases hv }
    obtain ⟨d, n, heq, hinv, -, hwait⟩ :=
      hset.streamWaitStream (some u) none a.preRecord a.preWait
    dsimp only
    split
    · next hok =>
      rw [heq]
      have hbefore : { s with
          lastUserStream_ := s.handle u, behind := none, device := d, records := n }.AllBefore
            withFailed (some u) := by
        intro k hk hc
        have hcov := h.home k hk hc
        rw [hhome] at hcov
        exact hwait hok k hcov
      refine ⟨⟨hinv.ordered, hinv.queued_lt, hinv.started_lt, hinv.succeeded_lt, hinv.live_lt,
        hinv.home, ?_, ?_⟩, fun _ => ⟨hbefore, hu, rfl⟩⟩
      · intro v hv
        cases hv
        exact hbefore
      · intro hwf v hv
        rw [show s.loose = none from hnone hwf] at hv
        cases hv
    · next hok =>
      rw [heq]
      exact ⟨hinv, fun h' => absurd h' hok⟩

theorem Inv.launchKernel (hbefore : s.AllBefore withFailed (some u))
    (hu : s.live u = true) (hlast : s.lastUserStream_ = s.handle u) :
    (s.launchKernel u).Inv withFailed ∧
      ∀ k ≤ s.launched, k = s.launched ∨ s.Counts withFailed k →
        (s.launchKernel u).device.Covered k ((s.launchKernel u).device.queue (some u)) := by
  have hall : ∀ k ≤ s.launched, k = s.launched ∨ s.Counts withFailed k →
      (s.launchKernel u).device.Covered k ((s.launchKernel u).device.queue (some u)) := by
    intro k hk hc
    rcases Nat.lt_or_eq_of_le hk with hlt | rfl
    · exact (hbefore k hlt (hc.resolve_left (by omega))).push_queue (some u) _
    · exact .inr (.here (by simp [KernelOrder.launchKernel, KernelOrder.push]))
  refine ⟨⟨?_, ?_, ?_, ?_, h.live_lt, ?_, ?_, ?_⟩, hall⟩
  · apply h.ordered.push
    rintro k hk j ⟨hjk, hj⟩
    cases hk
    exact hbefore j hjk hj
  · intro v k hk
    change .kernel k ∈ (s.device.push (some u) (.kernel s.launched)).queue v at hk
    change k < s.launched + 1
    by_cases hv : v = some u
    · subst hv
      rw [Device.push_queue_self, List.mem_append, List.mem_singleton] at hk
      rcases hk with hk | hk
      · exact Nat.lt_succ_of_lt (h.queued_lt _ k hk)
      · cases hk
        exact Nat.lt_succ_self _
    · rw [Device.push_queue_of_ne hv] at hk
      exact Nat.lt_succ_of_lt (h.queued_lt v k hk)
  · exact fun k hk => Nat.lt_succ_of_lt (h.started_lt k hk)
  · exact fun k hk => Nat.lt_succ_of_lt (h.succeeded_lt k hk)
  · intro k hk hc
    have hle : k ≤ s.launched := Nat.le_of_lt_succ hk
    cases withFailed with
    | true => exact hall k hle (.inr hc)
    | false =>
      -- the new kernel does not count yet
      have hsucc : s.succeeded k = true := hc.resolve_left (by simp)
      exact (h.home k (h.succeeded_lt k hsucc) (.inr hsucc)).push_queue (some u) _
  · intro v hv k hk hc
    cases hv
    exact hall k (Nat.le_of_lt_succ hk) (.inr hc)
  · intro _ v hv
    cases hv
    exact ⟨h.live_lt u hu, rfl, hlast⟩

theorem Inv.accept (hhome : s.loose = none)
    (hlaunched : s.launched = k + 1) (hkernel : s.device.Covered k (s.device.queue none))
    (hbehind : ∀ v, s.behind = some v → s.device.Covered k (s.device.queue (some v))) :
    { s with succeeded := update s.succeeded k true }.Inv withFailed := by
  have hcounts : ∀ j, { s with succeeded := update s.succeeded k true }.Counts withFailed j →
      j = k ∨ s.Counts withFailed j := by
    intro j hj
    by_cases hjk : j = k
    · exact .inl hjk
    · exact .inr (hj.imp_right fun hs => by simpa [hjk] using hs)
  have hnone : s.home withFailed = none := by
    unfold KernelOrder.home
    split
    · exact hhome
    · rfl
  refine ⟨?_, h.queued_lt, h.started_lt, ?_, h.live_lt, ?_, ?_, h.loose⟩
  · apply h.ordered.mono
    rintro j l hl ⟨hjl, hj⟩
    have hlt : l < s.launched := by
      rcases hl with ⟨v, hv⟩ | hl
      · exact h.queued_lt v l hv
      · exact h.started_lt l hl
    exact ⟨hjl, (hcounts j hj).resolve_left (by omega)⟩
  · intro j hj
    by_cases hjk : j = k
    · change j < s.launched
      omega
    · exact h.succeeded_lt j (by simpa [hjk] using hj)
  · intro j hj hc
    change s.device.Covered j (s.device.queue (s.home withFailed))
    rcases hcounts j hc with rfl | hc
    · rw [hnone]
      exact hkernel
    · exact h.home j hj hc
  · intro v hv j hj hc
    rcases hcounts j hc with rfl | hc
    · exact hbehind v hv
    · exact h.behind v hv j hj hc

theorem Inv.postKernelLaunch (hbefore : s.AllBefore withFailed (some u))
    (hu : s.live u = true) (hlast : s.lastUserStream_ = s.handle u) (a : LaunchAnswers) :
    ((s.launchKernel u).postKernelLaunch u a).2.Inv withFailed ∧
      (((s.launchKernel u).postKernelLaunch u a).1 = .commSuccess →
        { ((s.launchKernel u).postKernelLaunch u a).2 with
          succeeded := update ((s.launchKernel u).postKernelLaunch u a).2.succeeded s.launched
            true }.Inv withFailed) := by
  obtain ⟨hinv, hcov⟩ := h.launchKernel hbefore hu hlast
  obtain ⟨d, n, heq, hpost, hkept, hwait⟩ :=
    hinv.streamWaitStream none (some u) a.postRecord a.postWait
  unfold KernelOrder.postKernelLaunch
  dsimp only
  split
  · next hok =>
    rw [heq]
    have hloose : { s.launchKernel u with device := d, records := n, loose := none }.Inv
        withFailed := by
      refine ⟨hpost.ordered, hpost.queued_lt, hpost.started_lt, hpost.succeeded_lt, hpost.live_lt,
        ?_, hpost.behind, nofun⟩
      -- the internal stream now waits for what the kernel's stream is behind of
      intro k hk hc
      have hhome : { s.launchKernel u with device := d, records := n, loose := none }.home
          withFailed = none := by
        unfold KernelOrder.home
        split <;> rfl
      rw [hhome]
      exact hwait hok k (hcov k (Nat.le_of_lt_succ hk) (.inr hc))
    refine ⟨hloose, fun _ => hloose.accept rfl rfl ?_ ?_⟩
    · exact hwait hok _ (hcov _ (Nat.le_refl _) (.inl rfl))
    · intro v hv
      cases hv
      exact hkept _ _ (hcov _ (Nat.le_refl _) (.inl rfl))
  · next hok =>
    rw [heq]
    exact ⟨hpost, fun h' => absurd h' hok⟩

theorem Inv.submit (hu : s.live u = true)
    (hmeets : s.Meets withFailed (.submit u a)) : (s.submit u a).2.Inv withFailed := by
  obtain ⟨hpre, hbefore⟩ := h.preKernelLaunch hu hmeets
  unfold KernelOrder.submit
  by_cases hprepared : a.prepared = .commSuccess
  · rw [if_neg (not_not.2 hprepared)]
    dsimp only
    by_cases hres : (s.preKernelLaunch u a).1 = .commSuccess
    · rw [if_neg (not_not.2 hres)]
      obtain ⟨hall, hlive, hlast⟩ := hbefore hres
      obtain ⟨hpost, haccept⟩ := hpre.postKernelLaunch hall hlive hlast a
      by_cases hlaunch : a.launch = .commSuccess
      · rw [if_neg (not_not.2 hlaunch)]
        split
        · exact hpost
        · next hok => exact haccept (not_not.1 hok)
      · rw [if_pos hlaunch]
        exact hpre
    · rw [if_pos hres]
      exact hpre
  · rw [if_pos hprepared]
    exact h

end

theorem Step.inv (hstep : s.Step op s') (hop : s.Meets withFailed op) (h : s.Inv withFailed) :
    s'.Inv withFailed := by
  cases hstep with
  | createStream hd hfree => exact h.createStream hd
  | destroyStream u hu => exact h.destroyStream u
  | userWork u hu => exact h.push (some u) (by simp)
  | submit u a hu => exact h.submit hu hop
  | device d hd => exact h.device hd

/-- The kernels start in the order in which they were submitted, in every run in which a stream is
taken for the last one only where it is. -/
theorem records_inSubmissionOrder {lastUserStream : ℕ} (withFailed : Bool)
    (h : Reachable (Meets withFailed) lastUserStream s) : s.InSubmissionOrder withFailed := by
  have hinv : s.Inv withFailed := by
    induction h with
    | init => exact inv_init lastUserStream
    | step _ hstep hop ih => exact hstep.inv hop ih
  exact hinv.inSubmissionOrder

def allSucceed : LaunchAnswers :=
  ⟨.commSuccess, .commSuccess, .commSuccess, .commSuccess, .commSuccess, .commSuccess⟩

/-- Two kernels of one stream, the second of which starts when the first has finished. -/
theorem records_inSubmissionOrder_seven : ∃ s, Reachable (Meets true) 7 s ∧ s.device.started 1 = true ∧
    s.InSubmissionOrder true := by
  have h1 : Reachable (Meets true) 7 _ :=
    Reachable.init.step (.createStream 7 (by simp [init])) trivial
  have h2 := h1.step (.submit 0 allSucceed rfl) ⟨fun _ => .inl rfl, fun _ _ hv => nomatch hv⟩
  have h3 := h2.step (.device _ (.start (some 0) 0 _ rfl)) trivial
  have h4 := h3.step (.device _ (.finish (some 0) 0 _ rfl rfl)) trivial
  have h5 := h4.step (.submit 0 allSucceed rfl)
    ⟨fun _ => .inr rfl, fun _ v hv => nomatch (show none = some v from hv)⟩
  have h6 := h5.step (.device _ (.record (some 0) 0 _ rfl)) trivial
  have h7 := h6.step (.device _ (.start (some 0) 1 _ rfl)) trivial
  exact ⟨_, h7, rfl, records_inSubmissionOrder true h7⟩

/-- A stream is destroyed while its kernel runs, and a new stream gets its handle 7: the kernel
submitted to the new stream starts at once. -/
theorem overtaken_seven : ¬∀ s, Reachable (fun _ _ => True) 0 s → s.InSubmissionOrder false := by
  intro hall
  have h1 : Reachable (fun _ _ => True) 0 _ :=
    Reachable.init.step (.createStream 7 (by simp [init])) trivial
  have h2 := h1.step (.submit 0 allSucceed rfl) trivial
  have h3 := h2.step (.destroyStream 0 rfl) trivial
  have h4 := h3.step (.createStream 7 (by
    intro u hu
    by_cases heq : u = 0
    · subst heq
      cases hu
    · change update (update (fun _ => false) 0 true) 0 false u = true at hu
      simp [heq] at hu)) trivial
  have h5 := h4.step (.submit 1 allSucceed rfl) trivial
  have h6 := h5.step (.device _ (.start (some 1) 1 _ rfl)) trivial
  have hfinished := hall _ h6 1 rfl 0 (by decide) (.inr rfl)
  revert hfinished
  decide

end KernelOrder

end TorchComms.Gpe
