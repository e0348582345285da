import TorchComms.Foundation.Decimal
import TorchComms.Foundation.FirstMatch
import TorchComms.Foundation.Loop

/-! # `ibvFilterDeviceList`: the devices an HCA list selects

For each entry of the list a loop over the devices stops at the first one that the mode selects.
Exact match needs no more. Exclude and prefix match return what they should only for some lists.
Names hold no null character.
-/
namespace TorchComms.Ibverbx

open Foundation

structure IbDevice where
  name : String
deriving DecidableEq, Repr

structure IbvDevice where
  device : IbDevice
  port : ℤ
deriving DecidableEq, Repr

structure RoceHca where
  name : String := ""
  port : ℤ := -1
deriving DecidableEq, Repr

/-! ### The code: exceptions are given by their texts -/

/-- `std::stoi`. Both its exceptions carry its name. -/
def stoi (text : String) : Except String ℤ :=
  match numeral text.toList with
  | (_, []) => .error "stoi"
  | (negative, ds) =>
    let n : ℤ := if negative then -(value ds : ℤ) else value ds
    if -2 ^ 31 ≤ n ∧ n < 2 ^ 31 then .ok n else .error "stoi"

/-- An entry with more than one colon leaves the name empty and the port at -1. -/
def RoceHca.create (hcaStr : String) (defaultPort : ℤ) : Except String RoceHca :=
  match hcaStr.toList.splitOn ':' with
  | [_] => .ok ⟨hcaStr, defaultPort⟩
  | [name, port] => (stoi (String.ofList port)).map fun n => ⟨String.ofList name, n⟩
  | _ => .ok {}

section Filter

variable (opens : IbDevice → Bool)

/-- The constructor opens the device. -/
def IbvDevice.create (dev : IbDevice) (port : ℤ) : Except String IbvDevice :=
  if opens dev then .ok ⟨dev, port⟩ else .error ("Failed to open device " ++ dev.name)

/-- The inner loop: the first device of the kind looked for is appended. -/
def emplaceFirst (selects : IbDevice → Bool) (port : ℤ) :
    List IbDevice → List IbvDevice → Except String (List IbvDevice)
  | [], devices => .ok devices
  | dev :: devs, devices =>
    if selects dev then (IbvDevice.create opens dev port).map fun d => devices ++ [d]
    else emplaceFirst selects port devs devices

def ibvFilterDeviceList (devs : List IbDevice) (hcaList : List String) (hcaPrefix : String)
    (defaultPort : ℤ) : Except String (List IbvDevice) :=
  if hcaList = [] then devs.mapM fun dev => IbvDevice.create opens dev defaultPort
  else do
    let hcas ← hcaList.mapM fun hca => RoceHca.create hca defaultPort
    if hcaPrefix = "=" then
      hcas.foldlM (fun devices hca =>
        emplaceFirst opens (fun dev => hca.name = dev.name) hca.port devs devices) []
    else if hcaPrefix = "^" then
      hcas.foldlM (fun devices hca =>
        emplaceFirst opens (fun dev => hca.name ≠ dev.name) defaultPort devs devices) []
    else
      hcas.foldlM (fun devices hca =>
        emplaceFirst opens (fun dev => hca.name.toList.isPrefixOf dev.name.toList) hca.port devs
          devices) []

end Filter

/-! ### Entries -/

/-- An entry of the HCA list: a name, and the decimal digits of a port. -/
structure HcaEntry where
  name : String
  port : Option String
  colon_notMem : ':' ∉ name.toList
  port_ne : ∀ text ∈ port, text.toList ≠ []
  port_digits : ∀ text ∈ port, ∀ c ∈ text.toList, c.isDigit = true
  port_lt : ∀ text ∈ port, value text.toList < 2 ^ 31

namespace HcaEntry

def text (e : HcaEntry) : String :=
  match e.port with
  | none => e.name
  | some port => e.name ++ ":" ++ port

def portOr (e : HcaEntry) (defaultPort : ℤ) : ℤ :=
  match e.port with
  | none => defaultPort
  | some port => value port.toList

/-- The name of the device is that of the entry. -/
def Names (e : HcaEntry) (dev : IbDevice) : Prop := e.name = dev.name

/-- The name of the device starts with that of the entry. -/
def Starts (e : HcaEntry) (dev : IbDevice) : Prop := e.name.toList <+: dev.name.toList

instance (e : HcaEntry) (dev : IbDevice) : Decidable (e.Names dev) :=
  inferInstanceAs (Decidable (_ = _))

instance (e : HcaEntry) (dev : IbDevice) : Decidable (e.Starts dev) :=
  inferInstanceAs (Decidable (_ <+: _))

end HcaEntry

theorem stoi_digits {text : String} (hne : text.toList ≠ [])
    (hdigits : ∀ c ∈ text.toList, c.isDigit = true) (hlt : value text.toList < 2 ^ 31) :
    stoi text = .ok (value text.toList) := by
  unfold stoi
  rw [numeral_of_digits hdigits]
  split
  · rename_i heq
    exact absurd (congrArg Prod.snd heq) hne
  · rename_i negative ds heq
    cases heq
    apply if_pos
    simp only [Bool.false_eq_true, if_false]
    omega

theorem create_text (e : HcaEntry) (defaultPort : ℤ) :
    RoceHca.create e.text defaultPort = .ok ⟨e.name, e.portOr defaultPort⟩ := by
  unfold RoceHca.create HcaEntry.text HcaEntry.portOr
  cases hport : e.port with
  | none => rw [List.splitOn_eq_singleton e.colon_notMem]
  | some port =>
    have hdigits := e.port_digits port hport
    have hcolon : ':' ∉ port.toList := fun hmem => absurd (hdigits _ hmem) (by decide)
    have hsplit : (e.name ++ ":" ++ port).toList.splitOn ':' = [e.name.toList, port.toList] := by
      rw [String.toList_append, String.toList_append, List.append_assoc]
      change (e.name.toList ++ ':' :: port.toList).splitOn ':' = _
      rw [List.splitOn_append_cons_self, List.splitOn_eq_singleton e.colon_notMem,
        List.splitOn_eq_singleton hcolon]
      rfl
    rw [hsplit]
    change (stoi (String.ofList port.toList)).map _ = _
    rw [String.ofList_toList, String.ofList_toList,
      stoi_digits (e.port_ne port hport) hdigits (e.port_lt port hport)]
    rfl

/-! ### The loops -/

section Loops

variable {opens : IbDevice → Bool} {sel : HcaEntry → IbDevice → Bool} {port : HcaEntry → ℤ}
variable {devs : List IbDevice} {entries : List HcaEntry}

/-- What the loops append: for each entry the first device that it selects. -/
def chosen (sel : HcaEntry → IbDevice → Bool) (port : HcaEntry → ℤ) (entries : List HcaEntry)
    (devs : List IbDevice) : List IbvDevice :=
  (firstMatches sel entries devs).map fun m => ⟨m.2, port m.1⟩

theorem emplaceFirst_eq (selects : IbDevice → Bool) (n : ℤ) (devs : List IbDevice)
    (devices : List IbvDevice) : emplaceFirst opens selects n devs devices =
      match devs.find? selects with
      | none => .ok devices
      | some dev => (IbvDevice.create opens dev n).map fun d => devices ++ [d] := by
  induction devs with
  | nil => rfl
  | cons dev devs ih =>
    rw [emplaceFirst]
    by_cases hdev : selects dev = true
    · rw [if_pos hdev, List.find?_cons_of_pos hdev]
    · rw [if_neg hdev, List.find?_cons_of_neg hdev, ih]

theorem foldlM_emplaceFirst {devices out : List IbvDevice} :
    entries.foldlM (fun devices e => emplaceFirst opens (sel e) (port e) devs devices) devices =
        .ok out ↔
      (∀ r ∈ chosen sel port entries devs, opens r.device = true) ∧
        out = devices ++ chosen sel port entries devs := by
  induction entries generalizing devices with
  | nil =>
    constructor
    · rintro ⟨⟩
      exact ⟨nofun, (List.append_nil _).symm⟩
    · rintro ⟨-, rfl⟩
      exact congrArg Except.ok (List.append_nil _).symm
  | cons e entries ih =>
    rw [List.foldlM_cons, emplaceFirst_eq]
    cases hfind : devs.find? (sel e) with
    | none =>
      have hchosen : chosen sel port (e :: entries) devs = chosen sel port entries devs := by
        simp [chosen, firstMatches, hfind]
      rw [hchosen]
      exact ih
    | some dev =>
      have hchosen : chosen sel port (e :: entries) devs =
          ⟨dev, port e⟩ :: chosen sel port entries devs := by
        simp [chosen, firstMatches, hfind]
      rw [hchosen, List.forall_mem_cons, List.append_cons]
      by_cases hopen : opens dev = true
      · simp only [IbvDevice.create, hopen, if_true, true_and]
        exact ih
      · simp only [IbvDevice.create, hopen]
        constructor
        · rintro ⟨⟩
        · rintro ⟨⟨hfalse, -⟩, -⟩
          cases hfalse

theorem map_device_chosen : (chosen sel port entries devs).map IbvDevice.device =
    (firstMatches sel entries devs).map Prod.snd := by
  unfold chosen
  rw [List.map_map]
  rfl

theorem exists_of_mem_chosen {r : IbvDevice} (hr : r ∈ chosen sel port entries devs) :
    ∃ e ∈ entries, sel e r.device = true ∧ r.port = port e := by
  rcases List.mem_map.mp hr with ⟨⟨e, dev⟩, hmem, rfl⟩
  rcases firstMatches_sound sel hmem with ⟨he, -, hsel⟩
  exact ⟨e, he, hsel, rfl⟩

/-! ### What a mode should return -/

/-- The result holds every selected device of the list, each once, with a port that it may have. -/
structure Selects (devs : List IbDevice) (selected : IbDevice → Prop)
    (ports : IbDevice → ℤ → Prop) (devices : List IbvDevice) : Prop where
  nodup : (devices.map IbvDevice.device).Nodup
  mem_iff : ∀ dev, dev ∈ devices.map IbvDevice.device ↔ dev ∈ devs ∧ selected dev
  port : ∀ r ∈ devices, ports r.device r.port

/-- The call returns such a result. -/
def Returns (run : Except String (List IbvDevice)) (devs : List IbDevice)
    (selected : IbDevice → Prop) (ports : IbDevice → ℤ → Prop) : Prop :=
  ∃ devices, run = .ok devices ∧ Selects devs selected ports devices

variable {selected : IbDevice → Prop} {ports : IbDevice → ℤ → Prop}

theorem returns_iff :
    Returns (entries.foldlM (fun devices e => emplaceFirst opens (sel e) (port e) devs devices) [])
        devs selected ports ↔
      Selects devs selected ports (chosen sel port entries devs) ∧
        ∀ dev ∈ devs, selected dev → opens dev = true := by
  constructor
  · rintro ⟨devices, hrun, hselects⟩
    rcases foldlM_emplaceFirst.mp hrun with ⟨hopens, hdevices⟩
    rw [List.nil_append] at hdevices
    rw [hdevices] at hselects
    refine ⟨hselects, fun dev hdev hsel => ?_⟩
    rcases List.mem_map.mp ((hselects.mem_iff dev).mpr ⟨hdev, hsel⟩) with ⟨r, hr, rfl⟩
    exact hopens r hr
  · rintro ⟨hselects, hopens⟩
    refine ⟨_, foldlM_emplaceFirst.mpr ⟨fun r hr => ?_, rfl⟩, hselects⟩
    rcases (hselects.mem_iff r.device).mp (List.mem_map_of_mem hr) with ⟨hdev, hsel⟩
    exact hopens _ hdev hsel

theorem selects_matched_iff (sel : HcaEntry → IbDevice → Bool) (port : HcaEntry → ℤ)
    (devs : List IbDevice) (hentries : entries.Nodup) :
    Selects devs (fun dev => ∃ e ∈ entries, sel e dev = true)
        (fun dev n => ∃ e ∈ entries, sel e dev = true ∧ n = port e) (chosen sel port entries devs) ↔
      ∀ dev ∈ devs, (∃ e ∈ entries, sel e dev = true) →
        ∃! e, e ∈ entries ∧ devs.find? (sel e) = some dev := by
  rw [← firstMatches_exact_iff sel hentries, ← map_device_chosen]
  constructor
  · intro h
    exact ⟨h.nodup, h.mem_iff⟩
  · rintro ⟨hnodup, hmem⟩
    exact ⟨hnodup, hmem, fun r hr => exists_of_mem_chosen hr⟩

/-! ### Exact match -/

theorem selects_exact (hdevs : (devs.map IbDevice.name).Nodup)
    (hentries : (entries.map HcaEntry.name).Nodup) :
    Selects devs (fun dev => ∃ e ∈ entries, e.Names dev)
      (fun dev n => ∃ e ∈ entries, e.Names dev ∧ n = port e)
      (chosen (fun e dev => decide (e.Names dev)) port entries devs) := by
  have hmatched := (selects_matched_iff (fun e dev => decide (e.Names dev)) port devs
    hentries.of_map).mpr
  simp only [decide_eq_true_eq] at hmatched
  apply hmatched
  rintro dev hdev ⟨e, he, hname⟩
  refine ⟨e, ⟨he, find?_eq_some_of_unique hdev (decide_eq_true hname) ?_⟩, ?_⟩
  · intro dev' hdev' hname'
    exact List.inj_on_of_nodup_map hdevs hdev' hdev ((of_decide_eq_true hname').symm.trans hname)
  · rintro e' ⟨he', hfind⟩
    have hname' := List.find?_some hfind
    rw [decide_eq_true_eq] at hname'
    exact List.inj_on_of_nodup_map hentries he' he (hname'.trans hname.symm)

/-! ### Prefix match -/

/-- The device is the first one in the list whose name starts with that of the entry. -/
def HcaEntry.Leads (e : HcaEntry) (devs : List IbDevice) (i : Fin devs.length) : Prop :=
  e.Starts (devs.get i) ∧ ∀ j < i, ¬ e.Starts (devs.get j)

/-- Of the entries that start a device's name, exactly one starts no earlier device's name. -/
def PrefixesApart (entries : List HcaEntry) (devs : List IbDevice) : Prop :=
  ∀ i : Fin devs.length, (∃ e ∈ entries, e.Starts (devs.get i)) →
    ∃! e, e ∈ entries ∧ e.Leads devs i

theorem selects_starting_iff (hdevs : devs.Nodup) (hentries : entries.Nodup) :
    Selects devs (fun dev => ∃ e ∈ entries, e.Starts dev)
        (fun dev n => ∃ e ∈ entries, e.Starts dev ∧ n = port e)
        (chosen (fun e dev => decide (e.Starts dev)) port entries devs) ↔
      PrefixesApart entries devs := by
  have hmatched := selects_matched_iff (fun e dev => decide (e.Starts dev)) port devs hentries
  simp only [decide_eq_true_eq] at hmatched
  rw [hmatched, List.forall_mem_iff_get]
  apply forall_congr'
  intro i
  simp only [find?_eq_get_iff hdevs i, decide_eq_true_eq, decide_eq_false_iff_not]
  rfl

/-! ### Exclude match -/

/-- The devices that no entry names. -/
def remaining (entries : List HcaEntry) (devs : List IbDevice) : List IbDevice :=
  devs.filter fun dev => ∀ e ∈ entries, ¬ e.Names dev

theorem remaining_singleton (e : HcaEntry) :
    remaining [e] devs = devs.filter fun dev => decide (¬ e.Names dev) := by
  unfold remaining
  simp only [List.forall_mem_singleton]

variable {defaultPort : ℤ} {dev : IbDevice}

theorem remaining_mem_iff :
    dev ∈ remaining entries devs ↔ dev ∈ devs ∧ ∀ e ∈ entries, ¬ e.Names dev := by
  unfold remaining
  rw [List.mem_filter, decide_eq_true_eq]

variable {e : HcaEntry}

theorem selects_excluded_singleton_iff (hdevs : devs.Nodup) :
    Selects devs (fun dev => ∀ e' ∈ [e], ¬ e'.Names dev) (fun _ n => n = defaultPort)
        (chosen (fun e dev => decide (¬ e.Names dev)) (fun _ => defaultPort) [e] devs) ↔
      (remaining [e] devs).length ≤ 1 := by
  have hdevices : (chosen (fun e dev => decide (¬ e.Names dev)) (fun _ => defaultPort) [e] devs).map
      IbvDevice.device = (remaining [e] devs).head?.toList := by
    rw [map_device_chosen, firstMatches_singleton, remaining_singleton]
  have hnodup : (remaining [e] devs).Nodup := hdevs.filter _
  constructor
  · intro hselects
    have hsub : ∀ dev ∈ remaining [e] devs, dev ∈ (remaining [e] devs).head?.toList := by
      intro dev hdev
      rw [← hdevices]
      exact (hselects.mem_iff dev).mpr (remaining_mem_iff.mp hdev)
    apply (hnodup.length_le_of_subset hsub).trans
    cases (remaining [e] devs).head? with
    | none => exact Nat.zero_le 1
    | some _ => exact Nat.le_refl 1
  · intro hle
    have hall : (remaining [e] devs).head?.toList = remaining [e] devs := by
      match hrest : remaining [e] devs with
      | [] => rfl
      | [_] => rfl
      | _ :: _ :: _ =>
        rw [hrest] at hle
        exact absurd hle (by simp)
    rw [hall] at hdevices
    refine ⟨hdevices ▸ hnodup, fun dev => ?_, fun r hr => ?_⟩
    · rw [hdevices]
      exact remaining_mem_iff
    · rcases exists_of_mem_chosen hr with ⟨-, -, -, hport⟩
      exact hport

theorem mem_firstMatches_head (he : e ∈ entries) (hname : ¬ e.Names dev) : (e, dev) ∈
      firstMatches (fun e dev => decide (¬ e.Names dev)) entries (dev :: devs) := by
  apply (mem_firstMatches _).mpr
  exact ⟨he, List.find?_cons_of_pos (decide_eq_true hname)⟩

theorem length_of_selects {e e' : HcaEntry}
    (hentries : ((e :: e' :: entries).map HcaEntry.name).Nodup) :
    ¬ Selects (dev :: devs) (fun dev => ∀ e'' ∈ e :: e' :: entries, ¬ e''.Names dev)
      (fun _ n => n = defaultPort)
      (chosen (fun e dev => decide (¬ e.Names dev)) (fun _ => defaultPort) (e :: e' :: entries)
        (dev :: devs)) := by
  intro hselects
  have hne : e.name ≠ e'.name := by
    intro heq
    have hnotMem := (List.nodup_cons.mp hentries).1
    rw [heq] at hnotMem
    exact hnotMem List.mem_cons_self
  have htaken : ∃ x ∈ e :: e' :: entries, ¬ x.Names dev := by
    by_cases hname : e.Names dev
    · exact ⟨e', List.mem_cons_of_mem _ List.mem_cons_self, fun hname' =>
        hne (Eq.trans hname hname'.symm)⟩
    · exact ⟨e, List.mem_cons_self, hname⟩
  rcases htaken with ⟨x, hx, hname⟩
  -- The first device is returned, so no entry names it, and both entries take it.
  have hreturned : dev ∈ (chosen (fun e dev => decide (¬ e.Names dev)) (fun _ => defaultPort)
      (e :: e' :: entries) (dev :: devs)).map IbvDevice.device := by
    rw [map_device_chosen]
    exact List.mem_map.mpr ⟨(x, dev), mem_firstMatches_head hx hname, rfl⟩
  have hall := ((hselects.mem_iff dev).mp hreturned).2
  have hnodup := hselects.nodup
  rw [map_device_chosen] at hnodup
  have heq := List.inj_on_of_nodup_map hnodup
    (mem_firstMatches_head List.mem_cons_self (hall e List.mem_cons_self))
    (mem_firstMatches_head (List.mem_cons_of_mem _ List.mem_cons_self)
      (hall e' (List.mem_cons_of_mem _ List.mem_cons_self))) rfl
  exact hne (congrArg (fun m => m.1.name) heq)

theorem selects_excluded_iff (hdevs : devs.Nodup) (hne : entries ≠ [])
    (hentries : (entries.map HcaEntry.name).Nodup) :
    Selects devs (fun dev => ∀ e ∈ entries, ¬ e.Names dev) (fun _ n => n = defaultPort)
        (chosen (fun e dev => decide (¬ e.Names dev)) (fun _ => defaultPort) entries devs) ↔
      devs = [] ∨ entries.length = 1 ∧ (remaining entries devs).length ≤ 1 := by
  match entries, devs with
  | [], _ => exact absurd rfl hne
  | [e], devs =>
    rw [selects_excluded_singleton_iff hdevs]
    constructor
    · intro hle
      exact Or.inr ⟨rfl, hle⟩
    · rintro (rfl | ⟨-, hle⟩)
      · exact Nat.zero_le 1
      · exact hle
  | e :: e' :: entries, [] =>
    have hchosen : chosen (fun e dev => decide (¬ e.Names dev)) (fun _ => defaultPort)
        (e :: e' :: entries) [] = [] := by simp [chosen, firstMatches]
    rw [hchosen]
    exact iff_of_true ⟨List.nodup_nil, fun dev => iff_of_false nofun (by simp), nofun⟩ (Or.inl rfl)
  | e :: e' :: entries, dev :: devs =>
    apply iff_of_false (length_of_selects hentries)
    rintro (hnil | ⟨hlength, -⟩)
    · cases hnil
    · cases hlength

end Loops

/-! ### The list of devices -/

section Modes

variable (opens : IbDevice → Bool) {devs : List IbDevice} {entries : List HcaEntry}

theorem mapM_create (entries : List HcaEntry) (defaultPort : ℤ) :
    (entries.map HcaEntry.text).mapM (fun hca => RoceHca.create hca defaultPort) =
      .ok (entries.map fun e => ⟨e.name, e.portOr defaultPort⟩) := by
  rw [List.mapM_map]
  exact mapM_ok fun e _ => create_text e defaultPort

/-- The loops over the entries in each of the three modes. -/
theorem filter_eq (hne : entries ≠ []) (defaultPort : ℤ) (hcaPrefix : String) :
    ibvFilterDeviceList opens devs (entries.map HcaEntry.text) hcaPrefix defaultPort =
      if hcaPrefix = "=" then entries.foldlM (fun devices e => emplaceFirst opens
        (fun dev => decide (e.Names dev)) (e.portOr defaultPort) devs devices) []
      else if hcaPrefix = "^" then entries.foldlM (fun devices e => emplaceFirst opens
        (fun dev => decide (¬ e.Names dev)) defaultPort devs devices) []
      else entries.foldlM (fun devices e => emplaceFirst opens
        (fun dev => decide (e.Starts dev)) (e.portOr defaultPort) devs devices) [] := by
  have hmap : entries.map HcaEntry.text ≠ [] := mt List.map_eq_nil_iff.mp hne
  have hstarts : ∀ (e : HcaEntry) (dev : IbDevice),
      e.name.toList.isPrefixOf dev.name.toList = decide (e.Starts dev) := by
    intro e dev
    rw [Bool.eq_iff_iff, List.isPrefixOf_iff_prefix, decide_eq_true_eq]
    rfl
  rw [ibvFilterDeviceList, if_neg hmap, mapM_create]
  change (if hcaPrefix = "=" then _ else _) = _
  simp only [List.foldlM_map, hstarts]
  rfl

/-- For all devices and all entries with distinct names, exact match returns the devices that it
should, exclude match does where there is no device or one entry and at most one device left by it,
and prefix match does where the entries keep apart; in each mode those devices have to open. -/
theorem filter_spec (hdevs : (devs.map IbDevice.name).Nodup) (hne : entries ≠ [])
    (hentries : (entries.map HcaEntry.name).Nodup) (defaultPort : ℤ) :
    (Returns (ibvFilterDeviceList opens devs (entries.map HcaEntry.text) "=" defaultPort) devs
        (fun dev => ∃ e ∈ entries, e.Names dev)
        (fun dev n => ∃ e ∈ entries, e.Names dev ∧ n = e.portOr defaultPort) ↔
      ∀ dev ∈ devs, (∃ e ∈ entries, e.Names dev) → opens dev = true) ∧
    (Returns (ibvFilterDeviceList opens devs (entries.map HcaEntry.text) "^" defaultPort) devs
        (fun dev => ∀ e ∈ entries, ¬ e.Names dev) (fun _ n => n = defaultPort) ↔
      (devs = [] ∨ entries.length = 1 ∧ (remaining entries devs).length ≤ 1) ∧
        ∀ dev ∈ devs, (∀ e ∈ entries, ¬ e.Names dev) → opens dev = true) ∧
    (Returns (ibvFilterDeviceList opens devs (entries.map HcaEntry.text) "" defaultPort) devs
        (fun dev => ∃ e ∈ entries, e.Starts dev)
        (fun dev n => ∃ e ∈ entries, e.Starts dev ∧ n = e.portOr defaultPort) ↔
      PrefixesApart entries devs ∧
        ∀ dev ∈ devs, (∃ e ∈ entries, e.Starts dev) → opens dev = true) := by
  refine ⟨?_, ?_, ?_⟩
  · rw [filter_eq opens hne, if_pos rfl, returns_iff]
    exact and_iff_right (selects_exact hdevs hentries)
  · rw [filter_eq opens hne, if_neg (by decide), if_pos rfl, returns_iff,
      selects_excluded_iff hdevs.of_map hne hentries]
  · rw [filter_eq opens hne, if_neg (by decide), if_neg (by decide), returns_iff,
      selects_starting_iff hdevs.of_map hentries.of_map]

/-- A device of an adapter. -/
def mlx5 (n : String) : IbDevice := ⟨"mlx5_" ++ n⟩

def mlx5Port : HcaEntry where
  name := "mlx5_0"
  port := some "1"
  colon_notMem := by decide
  port_ne := by
    rintro text ⟨⟩
    decide
  port_digits := by
    rintro text ⟨⟩
    exact List.forall_mem_singleton.mpr rfl
  port_lt := by
    rintro text ⟨⟩
    decide

def mlx5All : HcaEntry := ⟨"mlx5", none, by decide, nofun, nofun, nofun⟩

/-- Two devices, and an entry for the first of them. -/
theorem filter_spec_pair :
    (Returns (ibvFilterDeviceList (fun _ => true) [mlx5 "0", mlx5 "1"]
          ([mlx5Port].map HcaEntry.text) "=" 0) [mlx5 "0", mlx5 "1"]
        (fun dev => ∃ e ∈ [mlx5Port], e.Names dev)
        (fun dev n => ∃ e ∈ [mlx5Port], e.Names dev ∧ n = e.portOr 0) ↔
      ∀ dev ∈ [mlx5 "0", mlx5 "1"], (∃ e ∈ [mlx5Port], e.Names dev) → true = true) ∧
    (Returns (ibvFilterDeviceList (fun _ => true) [mlx5 "0", mlx5 "1"]
          ([mlx5Port].map HcaEntry.text) "^" 0) [mlx5 "0", mlx5 "1"]
        (fun dev => ∀ e ∈ [mlx5Port], ¬ e.Names dev) (fun _ n => n = 0) ↔
      ([mlx5 "0", mlx5 "1"] = [] ∨
          [mlx5Port].length = 1 ∧ (remaining [mlx5Port] [mlx5 "0", mlx5 "1"]).length ≤ 1) ∧
        ∀ dev ∈ [mlx5 "0", mlx5 "1"], (∀ e ∈ [mlx5Port], ¬ e.Names dev) → true = true) ∧
    (Returns (ibvFilterDeviceList (fun _ => true) [mlx5 "0", mlx5 "1"]
          ([mlx5Port].map HcaEntry.text) "" 0) [mlx5 "0", mlx5 "1"]
        (fun dev => ∃ e ∈ [mlx5Port], e.Starts dev)
        (fun dev n => ∃ e ∈ [mlx5Port], e.Starts dev ∧ n = e.portOr 0) ↔
      PrefixesApart [mlx5Port] [mlx5 "0", mlx5 "1"] ∧
        ∀ dev ∈ [mlx5 "0", mlx5 "1"], (∃ e ∈ [mlx5Port], e.Starts dev) → true = true) :=
  filter_spec (fun _ => true) (by decide) (by decide) (by decide) 0

/-- Without its first device an adapter of three has two more, of which one is returned. Of the two
devices of an adapter only the first one is returned for its name. -/
theorem not_selected :
    ¬ Returns (ibvFilterDeviceList (fun _ => true) [mlx5 "0", mlx5 "1", mlx5 "2"]
          ([mlx5Port].map HcaEntry.text) "^" 0) [mlx5 "0", mlx5 "1", mlx5 "2"]
        (fun dev => ∀ e ∈ [mlx5Port], ¬ e.Names dev) (fun _ n => n = 0) ∧
    ¬ Returns (ibvFilterDeviceList (fun _ => true) [mlx5 "0", mlx5 "1"]
          ([mlx5All].map HcaEntry.text) "" 0) [mlx5 "0", mlx5 "1"]
        (fun dev => ∃ e ∈ [mlx5All], e.Starts dev)
        (fun dev n => ∃ e ∈ [mlx5All], e.Starts dev ∧ n = e.portOr 0) := by
  constructor
  · rintro ⟨devices, hrun, hselects⟩
    have hdevices : devices = [⟨mlx5 "1", 0⟩] := (Except.ok.inj hrun).symm
    have hmem := (hselects.mem_iff (mlx5 "2")).mpr ⟨by decide, by decide⟩
    rw [hdevices] at hmem
    revert hmem
    decide
  · rintro ⟨devices, hrun, hselects⟩
    have hdevices : devices = [⟨mlx5 "0", 0⟩] := (Except.ok.inj hrun).symm
    have hmem := (hselects.mem_iff (mlx5 "1")).mpr ⟨by decide, by decide⟩
    rw [hdevices] at hmem
    revert hmem
    decide

end Modes

end TorchComms.Ibverbx
