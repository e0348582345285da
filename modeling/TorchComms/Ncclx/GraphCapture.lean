import TorchComms.Ncclx.TorchWork

/-! # Works captured into CUDA graphs

While a stream is captured, the communicator keeps a reference to each enqueued work until the graph
is destroyed. The first work of a graph registers a CUDA user object with the graph, whose
destructor callback drops the references of that graph.
-/
namespace TorchComms.Ncclx

inductive CaptureStatus
  | cudaStreamCaptureStatusNone
  | cudaStreamCaptureStatusActive
  | cudaStreamCaptureStatusInvalidated
  deriving DecidableEq, Repr

/-- The communicator that a record points to is the one that is modelled. -/
structure GraphCleanupData where
  graph_id : ℕ
  deriving DecidableEq, Repr

/-- Who has the only reference to a user object. Nobody has it between the destruction of the graph
and the callback, which the driver runs on its own. -/
inductive Holder
  | caller
  | graph (graph_id : ℕ)
  | nobody
  deriving DecidableEq, Repr

structure UserObject where
  userData : ℕ
  holder : Holder
  deriving DecidableEq, Repr

inductive GraphLife
  | unborn
  | live
  | destroyed
  deriving DecidableEq, Repr

/-- What the CUDA API answers during one call of `enqueueWork`, and the address that `new` gives to
a cleanup record. -/
structure CaptureAnswers where
  isCapturing : CudaError
  capturing : CaptureStatus
  captureInfo : CudaError
  capture_status : CaptureStatus
  graph_id : ℕ
  cleanup_data : ℕ
  userObjectCreate : CudaError
  graphRetainUserObject : CudaError
  getErrorString : CudaError → String

/-- The map of the captured works with the parts of the driver and of the heap that it depends on:
user objects, numbered as they are created, graphs by their capture id, and the records that are
allocated. -/
structure GraphCapture where
  enable_cuda_graph_support_ : Bool
  graph_capture_work_refs_ : ℕ → Option (List ℕ)
  heap : ℕ → Option GraphCleanupData
  created : ℕ
  objects : ℕ → Option UserObject
  graphs : ℕ → GraphLife
  workq_ : List ℕ

namespace GraphCapture

open Function

def init (enable_cuda_graph_support : Bool) : GraphCapture where
  enable_cuda_graph_support_ := enable_cuda_graph_support
  graph_capture_work_refs_ := fun _ => none
  heap := fun _ => none
  created := 0
  objects := fun _ => none
  graphs := fun _ => .unborn
  workq_ := []

/-- `graph_capture_work_refs_[graph_id]`, which an absent key makes an empty list -/
def refs (s : GraphCapture) (graph_id : ℕ) : List ℕ :=
  (s.graph_capture_work_refs_ graph_id).getD []

/-- `graph_capture_work_refs_[graph_id].push_back(work)` -/
def pushBack (s : GraphCapture) (graph_id work : ℕ) : GraphCapture :=
  { s with graph_capture_work_refs_ :=
      update s.graph_capture_work_refs_ graph_id (some (s.refs graph_id ++ [work])) }

/-- `new GraphCleanupData(this, graph_id)` -/
def newRecord (s : GraphCapture) (addr graph_id : ℕ) : GraphCapture :=
  { s with heap := update s.heap addr (some ⟨graph_id⟩) }

def deleteRecord (s : GraphCapture) (addr : ℕ) : GraphCapture :=
  { s with heap := update s.heap addr none }

/-- A user object with the one reference of its creator, or moved to a graph. -/
def addObject (s : GraphCapture) (addr : ℕ) (holder : Holder) : GraphCapture :=
  { s with
    created := s.created + 1
    objects := update s.objects s.created (some ⟨addr, holder⟩) }

def getGraphCaptureMode (s : GraphCapture) (a : CaptureAnswers) : Except String Bool :=
  if !s.enable_cuda_graph_support_ then .ok false
  else if a.isCapturing = .cudaSuccess then
    .ok (a.capturing = .cudaStreamCaptureStatusActive)
  else .error ("Failed to check CUDA stream capture status: " ++ a.getErrorString a.isCapturing)

/-- The set-up of the cleanup by the first work of a graph. -/
def registerCleanup (s : GraphCapture) (a : CaptureAnswers) : Except String Unit × GraphCapture :=
  let s := s.newRecord a.cleanup_data a.graph_id
  if a.userObjectCreate ≠ .cudaSuccess then
    (.error ("Failed to create user object: " ++ a.getErrorString a.userObjectCreate),
      s.deleteRecord a.cleanup_data)
  else if a.graphRetainUserObject ≠ .cudaSuccess then
    -- the user object keeps its creator's reference, and the address of the record
    (.error ("Failed to retain user object: " ++ a.getErrorString a.graphRetainUserObject),
      (s.addObject a.cleanup_data .caller).deleteRecord a.cleanup_data)
  else (.ok (), s.addObject a.cleanup_data (.graph a.graph_id))

def enqueueWork (s : GraphCapture) (work : ℕ) (a : CaptureAnswers) :
    Except String Unit × GraphCapture :=
  match s.getGraphCaptureMode a with
  | .error e => (.error e, s)
  | .ok false => (.ok (), { s with workq_ := s.workq_ ++ [work] })
  | .ok true =>
    if a.captureInfo ≠ .cudaSuccess then
      (.error ("Failed to get CUDA stream capture info: " ++ a.getErrorString a.captureInfo), s)
    else if a.capture_status = .cudaStreamCaptureStatusActive then
      let is_first_work := (s.refs a.graph_id).isEmpty
      let s := s.pushBack a.graph_id work
      if is_first_work then s.registerCleanup a else (.ok (), s)
    else (.ok (), s)

/-- Undefined where the record has been deleted. -/
def graphCleanupCallback (s : GraphCapture) (userData : ℕ) : Option GraphCapture :=
  (s.heap userData).map fun data =>
    { s with
      graph_capture_work_refs_ := update s.graph_capture_work_refs_ data.graph_id none
      heap := update s.heap userData none }

/-- The graph's references are dropped with it. -/
def destroyGraph (s : GraphCapture) (graph_id : ℕ) : GraphCapture :=
  { s with
    graphs := update s.graphs graph_id .destroyed
    objects := fun o => (s.objects o).map fun x =>
      if x.holder = .graph graph_id then { x with holder := .nobody } else x }

inductive Op
  | beginCapture (graph_id : ℕ)
  | enqueueWork (work : ℕ) (answers : CaptureAnswers)
  | destroyGraph (graph_id : ℕ)
  | destructor (o : ℕ)

/-- A capture id is used once, a captured stream belongs to a live graph, and `new` gives an address
that is not in use. -/
inductive Step (s : GraphCapture) : Op → GraphCapture → Prop
  | beginCapture (g : ℕ) (h : s.graphs g = .unborn) :
      Step s (.beginCapture g) { s with graphs := update s.graphs g .live }
  | enqueueWork (work : ℕ) (a : CaptureAnswers)
      (hlive : a.captureInfo = .cudaSuccess → a.capture_status = .cudaStreamCaptureStatusActive →
        s.graphs a.graph_id = .live)
      (hnew : s.heap a.cleanup_data = none) :
      Step s (.enqueueWork work a) (s.enqueueWork work a).2
  | destroyGraph (g : ℕ) (h : s.graphs g = .live) : Step s (.destroyGraph g) (s.destroyGraph g)
  | destructor (o : ℕ) (x : UserObject) (s' : GraphCapture) (ho : s.objects o = some x)
      (hx : x.holder = .nobody) (h : s.graphCleanupCallback x.userData = some s') :
      Step s (.destructor o) { s' with objects := update s'.objects o none }

structure Transition where
  before : GraphCapture
  op : Op
  after : GraphCapture

/-- The transitions of a run, and the state that it has reached. -/
inductive Run (support : Bool) : List Transition → GraphCapture → Prop
  | nil : Run support [] (init support)
  | snoc {past : List Transition} {s s' : GraphCapture} {op : Op} (h : Run support past s)
      (hstep : s.Step op s') : Run support (past ++ [⟨s, op, s'⟩]) s'

/-- The user object is retained by the graph and carries a live record for it. -/
def Registered (s : GraphCapture) (g o : ℕ) : Prop :=
  ∃ x, s.objects o = some x ∧ x.holder = .graph g ∧ s.heap x.userData = some ⟨g⟩

/-- Every user object carries a live cleanup record. -/
def NoneDangling (s : GraphCapture) : Prop :=
  ∀ o x, s.objects o = some x → (s.heap x.userData).isSome

/-- A live graph has captured works exactly when one user object will release them, and nothing is
left once every graph is destroyed and every callback has run. -/
structure Accounted (s : GraphCapture) : Prop where
  live : ∀ g, s.graphs g = .live → (s.refs g ≠ [] ↔ ∃! o, s.Registered g o)
  released : (∀ g, s.graphs g ≠ .live) → (∀ o x, s.objects o = some x → x.holder ≠ .nobody) →
    ∀ g, s.graph_capture_work_refs_ g = none

/-- A call of `enqueueWork` that throws. -/
def Transition.Throws (τ : Transition) : Prop :=
  ∃ work a e, τ.op = .enqueueWork work a ∧ (τ.before.enqueueWork work a).1 = .error e

/-- What is promised of a transition and of the states around it. -/
structure Transition.Released (τ : Transition) : Prop where
  before : τ.before.Accounted
  after : τ.after.Accounted
  thrown : τ.Throws →
    τ.after.graph_capture_work_refs_ = τ.before.graph_capture_work_refs_ ∧ τ.after.NoneDangling

/-- The call captures the first work of a graph. -/
def CapturesFirst (s : GraphCapture) (a : CaptureAnswers) : Prop :=
  s.getGraphCaptureMode a = .ok true ∧ a.captureInfo = .cudaSuccess ∧
    a.capture_status = .cudaStreamCaptureStatusActive ∧ s.refs a.graph_id = []

/-- The driver accepts the cleanup that the first work of a graph registers. -/
def Transition.Accepted (τ : Transition) : Prop :=
  ∀ work a, τ.op = .enqueueWork work a → τ.before.CapturesFirst a →
    a.userObjectCreate = .cudaSuccess ∧ a.graphRetainUserObject = .cudaSuccess

/-! ## What one call does -/

variable {s s' : GraphCapture} {g o work : ℕ} {a : CaptureAnswers}

theorem refs_eq_nil (s : GraphCapture) (g : ℕ) :
    s.refs g = [] ↔ s.graph_capture_work_refs_ g = none ∨
      s.graph_capture_work_refs_ g = some [] := by
  unfold refs
  cases s.graph_capture_work_refs_ g <;> simp

theorem enqueueWork_cases (s : GraphCapture) (work : ℕ) (a : CaptureAnswers) :
    (∃ e, s.enqueueWork work a = (.error e, s)) ∨
    (∃ q, s.enqueueWork work a = (.ok (), { s with workq_ := q })) ∨
    (s.refs a.graph_id ≠ [] ∧ s.enqueueWork work a = (.ok (), s.pushBack a.graph_id work)) ∨
    (s.CapturesFirst a ∧
      s.enqueueWork work a = (s.pushBack a.graph_id work).registerCleanup a) := by
  unfold enqueueWork
  cases hmode : s.getGraphCaptureMode a with
  | error e => exact .inl ⟨e, rfl⟩
  | ok mode =>
    cases mode with
    | false => exact .inr (.inl ⟨_, rfl⟩)
    | true =>
      by_cases hinfo : a.captureInfo = .cudaSuccess
      · by_cases hactive : a.capture_status = .cudaStreamCaptureStatusActive
        · by_cases hfirst : s.refs a.graph_id = []
          · exact .inr (.inr (.inr ⟨⟨hmode, hinfo, hactive, hfirst⟩, by
              simp [hinfo, hactive, hfirst]⟩))
          · exact .inr (.inr (.inl ⟨hfirst, by simp [hinfo, hactive, hfirst]⟩))
        · exact .inr (.inl ⟨s.workq_, by simp [hinfo, hactive]⟩)
      · exact .inl ⟨_, if_pos hinfo⟩

theorem enqueueWork_first (h : s.CapturesFirst a) :
    s.enqueueWork work a = (s.pushBack a.graph_id work).registerCleanup a := by
  obtain ⟨hmode, hinfo, hactive, hfirst⟩ := h
  simp [enqueueWork, hmode, hinfo, hactive, hfirst]

theorem registerCleanup_accepted (hcreate : a.userObjectCreate = .cudaSuccess)
    (hretain : a.graphRetainUserObject = .cudaSuccess) :
    s.registerCleanup a =
      (.ok (), (s.newRecord a.cleanup_data a.graph_id).addObject a.cleanup_data
        (.graph a.graph_id)) := by
  simp [registerCleanup, hcreate, hretain]

theorem registerCleanup_refused
    (h : ¬(a.userObjectCreate = .cudaSuccess ∧ a.graphRetainUserObject = .cudaSuccess)) :
    ∃ e, (s.registerCleanup a).1 = .error e ∧
      (s.registerCleanup a).2.graph_capture_work_refs_ = s.graph_capture_work_refs_ := by
  unfold registerCleanup
  by_cases hcreate : a.userObjectCreate = .cudaSuccess
  · have hretain : a.graphRetainUserObject ≠ .cudaSuccess := fun hr => h ⟨hcreate, hr⟩
    rw [if_neg (not_not.2 hcreate), if_pos hretain]
    exact ⟨_, rfl, rfl⟩
  · rw [if_pos hcreate]
    exact ⟨_, rfl, rfl⟩

/-! ## Runs in which the driver accepts every cleanup -/

/-- The works of a graph and the user object that releases them stand and fall together. -/
structure Paired (s : GraphCapture) : Prop where
  nonempty : ∀ g, s.graph_capture_work_refs_ g ≠ some []
  numbered : ∀ o x, s.objects o = some x → o < s.created
  held : ∀ o x, s.objects o = some x → ∃ g, s.heap x.userData = some ⟨g⟩ ∧
    s.graph_capture_work_refs_ g ≠ none ∧
    (x.holder = .graph g ∧ s.graphs g = .live ∨ x.holder = .nobody ∧ s.graphs g = .destroyed)
  registered : ∀ g, s.graph_capture_work_refs_ g ≠ none →
    ∃ o x, s.objects o = some x ∧ s.heap x.userData = some ⟨g⟩
  unique : ∀ o o' x x' g, s.objects o = some x → s.objects o' = some x' →
    s.heap x.userData = some ⟨g⟩ → s.heap x'.userData = some ⟨g⟩ → o = o'

theorem paired_init (support : Bool) : (init support).Paired where
  nonempty := by simp [init]
  numbered := by simp [init]
  held := by simp [init]
  registered := by simp [init]
  unique := by simp [init]

theorem Paired.noneDangling (h : s.Paired) : s.NoneDangling := by
  intro o x ho
  obtain ⟨g, hg, -⟩ := h.held o x ho
  simp [hg]

theorem Paired.accounted (h : s.Paired) : s.Accounted where
  live := by
    intro g hlive
    constructor
    · intro hrefs
      have hkey : s.graph_capture_work_refs_ g ≠ none :=
        fun hnone => hrefs ((s.refs_eq_nil g).2 (.inl hnone))
      obtain ⟨o, x, ho, hdata⟩ := h.registered g hkey
      obtain ⟨g', hdata', -, hholder⟩ := h.held o x ho
      have hg : g' = g := by simpa [hdata] using hdata'.symm
      subst hg
      refine ⟨o, ⟨x, ho, ?_, hdata⟩, ?_⟩
      · rcases hholder with ⟨hx, -⟩ | ⟨-, hdead⟩
        · exact hx
        · simp [hlive] at hdead
      · rintro o' ⟨x', ho', -, hdata'⟩
        exact h.unique o' o x' x g' ho' ho hdata' hdata
    · rintro ⟨o, ⟨x, ho, -, hdata⟩, -⟩ hrefs
      obtain ⟨g', hdata', hkey, -⟩ := h.held o x ho
      have hg : g' = g := by simpa [hdata] using hdata'.symm
      subst hg
      rcases (s.refs_eq_nil g').1 hrefs with hnone | hnil
      · exact hkey hnone
      · exact h.nonempty g' hnil
  released := by
    intro hdead hrun g
    by_contra hkey
    obtain ⟨o, x, ho, -⟩ := h.registered g hkey
    obtain ⟨g', -, -, ⟨-, hlive⟩ | ⟨hx, -⟩⟩ := h.held o x ho
    · exact hdead g' hlive
    · exact hrun o x ho hx

theorem Paired.beginCapture (h : s.Paired) (hg : s.graphs g = .unborn) :
    { s with graphs := update s.graphs g .live }.Paired where
  __ := h
  held := by
    intro o x ho
    obtain ⟨g', hdata, hkey, hholder⟩ := h.held o x ho
    have hne : g' ≠ g := by
      rintro rfl
      simp [hg] at hholder
    exact ⟨g', hdata, hkey, by simpa only [update_of_ne hne] using hholder⟩

theorem Paired.workq (h : s.Paired) (q : List ℕ) : { s with workq_ := q }.Paired :=
  ⟨h.nonempty, h.numbered, h.held, h.registered, h.unique⟩

theorem pushBack_apply (s : GraphCapture) (g work g' : ℕ) :
    (s.pushBack g work).graph_capture_work_refs_ g' =
      if g' = g then some (s.refs g ++ [work]) else s.graph_capture_work_refs_ g' := by
  simp [pushBack, update_apply]

theorem Paired.pushBack (h : s.Paired) (hrefs : s.refs g ≠ []) (work : ℕ) :
    (s.pushBack g work).Paired where
  nonempty := by
    intro g'
    rw [pushBack_apply]
    split
    · simp
    · exact h.nonempty g'
  __ := h
  held := by
    intro o x ho
    obtain ⟨g', hdata, hkey, hholder⟩ := h.held o x ho
    refine ⟨g', hdata, ?_, hholder⟩
    rw [pushBack_apply]
    split
    · simp
    · exact hkey
  registered := by
    intro g' hkey
    apply h.registered g'
    rw [pushBack_apply] at hkey
    split at hkey
    · next hg =>
      subst hg
      exact fun hnone => hrefs ((s.refs_eq_nil _).2 (.inl hnone))
    · exact hkey

theorem Paired.first (h : s.Paired) (hlive : s.graphs g = .live) (hrefs : s.refs g = [])
    {addr : ℕ} (hnew : s.heap addr = none) (work : ℕ) :
    (((s.pushBack g work).newRecord addr g).addObject addr (.graph g)).Paired := by
  have hkey : s.graph_capture_work_refs_ g = none :=
    ((s.refs_eq_nil g).1 hrefs).resolve_right (h.nonempty g)
  -- the records in use are elsewhere, and for other graphs
  have hold : ∀ o x, s.objects o = some x → x.userData ≠ addr := by
    rintro o x ho rfl
    obtain ⟨g', hdata, -⟩ := h.held o x ho
    simp [hnew] at hdata
  have hother : ∀ o x g', s.objects o = some x → s.heap x.userData = some ⟨g'⟩ → g' ≠ g := by
    rintro o x g' ho hdata rfl
    obtain ⟨g'', hdata', hkey', -⟩ := h.held o x ho
    have : g'' = g' := by simpa [hdata] using hdata'.symm
    exact hkey' (this ▸ hkey)
  have hobj : ∀ o, (((s.pushBack g work).newRecord addr g).addObject addr (.graph g)).objects o =
      if o = s.created then some ⟨addr, .graph g⟩ else s.objects o := by
    intro o
    simp [addObject, newRecord, GraphCapture.pushBack, update_apply]
  have hheap : ∀ p, (((s.pushBack g work).newRecord addr g).addObject addr (.graph g)).heap p =
      if p = addr then some ⟨g⟩ else s.heap p := by
    intro p
    simp [addObject, newRecord, GraphCapture.pushBack, update_apply]
  constructor
  · intro g'
    change (s.pushBack g work).graph_capture_work_refs_ g' ≠ some []
    rw [pushBack_apply]
    split
    · simp
    · exact h.nonempty g'
  · intro o x ho
    change o < s.created + 1
    rw [hobj] at ho
    split at ho
    · omega
    · have := h.numbered o x ho
      omega
  · intro o x ho
    change ∃ g', _ ∧ (s.pushBack g work).graph_capture_work_refs_ g' ≠ none ∧
      (x.holder = .graph g' ∧ s.graphs g' = .live ∨ x.holder = .nobody ∧ s.graphs g' = .destroyed)
    rw [hobj] at ho
    simp only [hheap, pushBack_apply]
    split at ho
    · cases ho
      exact ⟨g, by simp, by simp, .inl ⟨rfl, hlive⟩⟩
    · obtain ⟨g', hdata, hkey', hholder⟩ := h.held o x ho
      exact ⟨g', by rw [if_neg (hold o x ho)]; exact hdata,
        by rw [if_neg (hother o x g' ho hdata)]; exact hkey', hholder⟩
  · intro g' hkey'
    change (s.pushBack g work).graph_capture_work_refs_ g' ≠ none at hkey'
    rw [pushBack_apply] at hkey'
    simp only [hobj, hheap]
    split at hkey'
    · next hg => exact ⟨s.created, ⟨addr, .graph g⟩, by simp, by simp [hg]⟩
    · obtain ⟨o, x, ho, hdata⟩ := h.registered g' hkey'
      have hne : o ≠ s.created := by
        have := h.numbered o x ho
        omega
      exact ⟨o, x, by rw [if_neg hne]; exact ho, by rw [if_neg (hold o x ho)]; exact hdata⟩
  · intro o o' x x' g' ho ho' hdata hdata'
    rw [hobj] at ho ho'
    rw [hheap] at hdata hdata'
    split at ho <;> split at ho'
    · omega
    · cases ho
      rw [if_neg (hold o' x' ho')] at hdata'
      have hg : g = g' := by simpa using hdata
      exact absurd hg.symm (hother o' x' g' ho' hdata')
    · cases ho'
      rw [if_neg (hold o x ho)] at hdata
      have hg : g = g' := by simpa using hdata'
      exact absurd hg.symm (hother o x g' ho hdata)
    · rw [if_neg (hold o x ho)] at hdata
      rw [if_neg (hold o' x' ho')] at hdata'
      exact h.unique o o' x x' g' ho ho' hdata hdata'

variable {past : List Transition} {x : UserObject} {τ : Transition} {support : Bool}

theorem destroyGraph_objects (h : (s.destroyGraph g).objects o = some x) :
    ∃ y, s.objects o = some y ∧ x.userData = y.userData ∧
      x.holder = if y.holder = .graph g then .nobody else y.holder := by
  simp only [destroyGraph, Option.map_eq_some_iff] at h
  obtain ⟨y, hy, rfl⟩ := h
  refine ⟨y, hy, ?_, ?_⟩ <;> split <;> rfl

theorem Paired.destroyGraph (h : s.Paired) : (s.destroyGraph g).Paired where
  nonempty := h.nonempty
  numbered := by
    intro o x ho
    obtain ⟨y, hy, -⟩ := destroyGraph_objects ho
    exact h.numbered o y hy
  held := by
    intro o x ho
    obtain ⟨y, hy, hdata, hx⟩ := destroyGraph_objects ho
    obtain ⟨g', hg', hkey, hholder⟩ := h.held o y hy
    refine ⟨g', by rw [hdata]; exact hg', hkey, ?_⟩
    simp only [GraphCapture.destroyGraph, update_apply]
    rcases hholder with ⟨hy', hlive⟩ | ⟨hy', hdead⟩
    · rw [hy'] at hx
      by_cases hg : g' = g
      · simp [hx, hg]
      · simp [hx, hg, hlive]
    · rw [hy'] at hx
      by_cases hg : g' = g
      · simp [hx, hg]
      · simp [hx, hg, hdead]
  registered := by
    intro g' hkey
    obtain ⟨o, x, ho, hdata⟩ := h.registered g' hkey
    by_cases hx : x.holder = .graph g
    · exact ⟨o, { x with holder := .nobody }, by simp [GraphCapture.destroyGraph, ho, hx], hdata⟩
    · exact ⟨o, x, by simp [GraphCapture.destroyGraph, ho, hx], hdata⟩
  unique := by
    intro o o' x x' g' ho ho' hx hx'
    obtain ⟨y, hy, hdata, -⟩ := destroyGraph_objects ho
    obtain ⟨y', hy', hdata', -⟩ := destroyGraph_objects ho'
    exact h.unique o o' y y' g' hy hy' (hdata ▸ hx) (hdata' ▸ hx')

theorem Paired.destructor (h : s.Paired) (ho : s.objects o = some x)
    (hcall : s.graphCleanupCallback x.userData = some s') :
    { s' with objects := update s'.objects o none }.Paired := by
  obtain ⟨g, hg, -, -⟩ := h.held o x ho
  simp only [graphCleanupCallback, hg, Option.map_some, Option.some.injEq] at hcall
  subst hcall
  have hrest : ∀ o' x', update s.objects o none o' = some x' → o' ≠ o ∧ s.objects o' = some x' := by
    intro o' x' ho'
    by_cases hne : o' = o
    · simp [hne] at ho'
    · exact ⟨hne, by simpa [hne] using ho'⟩
  -- another object has another record, for another graph
  have hgraph : ∀ o' x' g', s.objects o' = some x' → o' ≠ o → s.heap x'.userData = some ⟨g'⟩ →
      g' ≠ g := by
    rintro o' x' g' ho' hne hdata rfl
    exact hne (h.unique o' o x' x g' ho' ho hdata hg)
  have haddr : ∀ o' x', s.objects o' = some x' → o' ≠ o → x'.userData ≠ x.userData := by
    intro o' x' ho' hne heq
    exact hgraph o' x' g ho' hne (heq ▸ hg) rfl
  constructor
  · intro g'
    by_cases hgg : g' = g
    · simp [hgg]
    · simpa [hgg] using h.nonempty g'
  · intro o' x' ho'
    exact h.numbered o' x' (hrest o' x' ho').2
  · intro o' x' ho'
    obtain ⟨hne, hobj⟩ := hrest o' x' ho'
    obtain ⟨g', hdata, hkey, hholder⟩ := h.held o' x' hobj
    refine ⟨g', ?_, ?_, hholder⟩
    · simpa [haddr o' x' hobj hne] using hdata
    · simpa [hgraph o' x' g' hobj hne hdata] using hkey
  · intro g' hkey
    by_cases hgg : g' = g
    · simp [hgg] at hkey
    · simp only [update_of_ne hgg] at hkey
      obtain ⟨o', x', ho', hdata⟩ := h.registered g' hkey
      have hne : o' ≠ o := by
        rintro rfl
        have hx : x' = x := by simpa [ho] using ho'.symm
        subst hx
        exact hgg (by simpa [hg] using hdata.symm)
      exact ⟨o', x', by simpa [hne] using ho', by simpa [haddr o' x' ho' hne] using hdata⟩
  · intro o₁ o₂ x₁ x₂ g' ho₁ ho₂ hdata₁ hdata₂
    obtain ⟨hne₁, hobj₁⟩ := hrest o₁ x₁ ho₁
    obtain ⟨hne₂, hobj₂⟩ := hrest o₂ x₂ ho₂
    simp only [update_of_ne (haddr o₁ x₁ hobj₁ hne₁)] at hdata₁
    simp only [update_of_ne (haddr o₂ x₂ hobj₂ hne₂)] at hdata₂
    exact h.unique o₁ o₂ x₁ x₂ g' hobj₁ hobj₂ hdata₁ hdata₂

theorem Step.paired {op : Op} (hstep : s.Step op s')
    (hop : (⟨s, op, s'⟩ : Transition).Accepted) (h : s.Paired) : s'.Paired := by
  cases hstep with
  | beginCapture g hg => exact h.beginCapture hg
  | enqueueWork work a hlive hnew =>
    rcases s.enqueueWork_cases work a with ⟨e, heq⟩ | ⟨q, heq⟩ | ⟨hrefs, heq⟩ | ⟨hfirst, heq⟩
    · rw [heq]
      exact h
    · rw [heq]
      exact h.workq q
    · rw [heq]
      exact h.pushBack hrefs work
    · obtain ⟨hcreate, hretain⟩ := hop work a rfl hfirst
      rw [heq, registerCleanup_accepted hcreate hretain]
      exact h.first (hlive hfirst.2.1 hfirst.2.2.1) hfirst.2.2.2 hnew work
  | destroyGraph g hg => exact h.destroyGraph
  | destructor o x s' ho hx hcall => exact h.destructor ho hcall

theorem Step.enqueueWork_eq (h : s.Step (.enqueueWork work a) s') :
    s' = (s.enqueueWork work a).2 := by
  cases h
  rfl

theorem Transition.Accepted.unchanged (hop : τ.Accepted)
    (hstep : τ.before.Step τ.op τ.after) (hthrows : τ.Throws) : τ.after = τ.before := by
  obtain ⟨s, op, s'⟩ := τ
  obtain ⟨work, a, e, rfl, hthrown⟩ := hthrows
  have hs' : s' = (s.enqueueWork work a).2 := Step.enqueueWork_eq hstep
  change s' = s
  rw [hs']
  change (s.enqueueWork work a).1 = .error e at hthrown
  rcases s.enqueueWork_cases work a with ⟨e', heq⟩ | ⟨q, heq⟩ | ⟨hrefs, heq⟩ | ⟨hfirst, heq⟩
  · rw [heq]
  · simp [heq] at hthrown
  · simp [heq] at hthrown
  · obtain ⟨hcreate, hretain⟩ := hop work a rfl hfirst
    simp [heq, registerCleanup_accepted hcreate hretain] at hthrown

theorem Run.paired (h : Run support past s)
    (hops : ∀ τ ∈ past, τ.Accepted) : s.Paired ∧ ∀ τ ∈ past, τ.Released := by
  induction h with
  | nil => exact ⟨paired_init support, by simp⟩
  | @snoc past s s' op _ hstep ih =>
    obtain ⟨hs, hpast⟩ := ih fun τ hτ => hops τ (List.mem_append_left _ hτ)
    have hop : (⟨s, op, s'⟩ : Transition).Accepted := hops _ (by simp)
    have hs' : s'.Paired := hstep.paired hop hs
    refine ⟨hs', ?_⟩
    intro τ hτ
    rcases List.mem_append.1 hτ with hτ | hτ
    · exact hpast τ hτ
    · rw [List.mem_singleton] at hτ
      subst hτ
      refine ⟨hs.accounted, hs'.accounted, fun hthrows => ⟨?_, hs'.noneDangling⟩⟩
      exact congrArg _ (hop.unchanged hstep hthrows)

theorem Transition.Released.accepted (h : τ.Released)
    (hstep : τ.before.Step τ.op τ.after) : τ.Accepted := by
  obtain ⟨s, op, s'⟩ := τ
  intro work a hop hfirst
  by_contra hrefused
  obtain ⟨e, he, hmap⟩ := registerCleanup_refused (s := s.pushBack a.graph_id work) hrefused
  change op = _ at hop
  subst hop
  have hcall : s.enqueueWork work a = (s.pushBack a.graph_id work).registerCleanup a :=
    enqueueWork_first hfirst
  have hs' : s' = (s.enqueueWork work a).2 := Step.enqueueWork_eq hstep
  have hkept := (h.thrown ⟨work, a, e, rfl, by rw [hcall]; exact he⟩).1
  change s'.graph_capture_work_refs_ = s.graph_capture_work_refs_ at hkept
  rw [hs', hcall, hmap] at hkept
  have hsame : (s.pushBack a.graph_id work).refs a.graph_id = s.refs a.graph_id := by
    unfold refs
    rw [hkept]
  have hempty : s.refs a.graph_id = [] := hfirst.2.2.2
  rw [hempty] at hsame
  simp [refs, pushBack_apply] at hsame

theorem Run.steps (h : Run support past s) : ∀ τ ∈ past, τ.before.Step τ.op τ.after := by
  induction h with
  | nil => simp
  | snoc h hstep ih =>
    intro τ hτ
    rcases List.mem_append.1 hτ with hτ | hτ
    · exact ih τ hτ
    · rw [List.mem_singleton] at hτ
      subst hτ
      exact hstep

/-- The works of every graph are released exactly when it dies, in every run in which the driver
accepts the cleanup of each first work, and in no other run. -/
theorem released_iff {support : Bool} {past : List Transition} (h : Run support past s) :
    (∀ τ ∈ past, τ.Released) ↔ ∀ τ ∈ past, τ.Accepted :=
  ⟨fun hall τ hτ => (hall τ hτ).accepted (h.steps τ hτ), fun hops => (h.paired hops).2⟩

/-- A call on a captured stream of graph 3. -/
def answersThree (create retain : CudaError) : CaptureAnswers where
  isCapturing := .cudaSuccess
  capturing := .cudaStreamCaptureStatusActive
  captureInfo := .cudaSuccess
  capture_status := .cudaStreamCaptureStatusActive
  graph_id := 3
  cleanup_data := 40
  userObjectCreate := create
  graphRetainUserObject := retain
  getErrorString := fun _ => "out of memory"

/-- Graph 3 captures work 7 and is destroyed, and its callback has run. -/
theorem released_three : ∃ past s, Run true past s ∧ past.length = 4 ∧
    ∀ τ ∈ past, τ.Released := by
  have h1 := Run.nil.snoc (Step.beginCapture (s := init true) 3 rfl)
  have h2 := h1.snoc (.enqueueWork 7 (answersThree .cudaSuccess .cudaSuccess)
    (fun _ _ => by decide) rfl)
  have h3 := h2.snoc (.destroyGraph 3 (by decide))
  have h4 := h3.snoc (.destructor 0 ⟨40, .nobody⟩ _ (by decide) rfl rfl)
  refine ⟨_, _, h4, rfl, (released_iff h4).2 ?_⟩
  intro τ hτ work a hop hfirst
  simp only [List.nil_append, List.cons_append, List.mem_cons, List.not_mem_nil, or_false] at hτ
  rcases hτ with rfl | rfl | rfl | rfl
  · cases hop
  · cases hop
    exact ⟨rfl, rfl⟩
  · cases hop
  · cases hop

/-- The user object for the first work of graph 3 cannot be created: `enqueueWork` throws, the work
stays in the map, and is still there when the only graph has been destroyed. -/
theorem leaked_three : ¬∀ past s, Run true past s → ∀ τ ∈ past, τ.Released := by
  intro hall
  have h1 := Run.nil.snoc (Step.beginCapture (s := init true) 3 rfl)
  have h2 := h1.snoc (.enqueueWork 7 (answersThree (.other 2) .cudaSuccess)
    (fun _ _ => by decide) rfl)
  have h3 := h2.snoc (.destroyGraph 3 (by decide))
  have hlast := (hall _ _ h3 _ (List.mem_append_right _ (List.mem_singleton.2 rfl))).after
  have hkey := hlast.released ?_ ?_ 3
  · revert hkey
    decide
  · intro g
    by_cases hg : g = 3
    · subst hg
      decide
    · simp [destroyGraph, enqueueWork, getGraphCaptureMode, registerCleanup, answersThree, init,
        refs, pushBack, newRecord, deleteRecord, hg]
  · intro o x ho
    simp [destroyGraph, enqueueWork, getGraphCaptureMode, registerCleanup, answersThree, init,
        refs, pushBack, newRecord, deleteRecord] at ho

end GraphCapture

end TorchComms.Ncclx
