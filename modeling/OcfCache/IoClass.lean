import Mathlib.Algebra.BigOperators.Intervals
import Mathlib.Algebra.Order.BigOperators.Group.Finset
import OcfCache.Runs
import OcfCache.UserPartList

/-!
# Configuration of IO classes

`ocf_mngt_io_class.c`: the requests of a configuration are checked, applied one
after another to the configuration in the metadata, and the list of partitions
is sorted. When a request is refused, `user_parts` is copied back from a backup.
It holds pointers to the configuration, and so the backup does not cover what
the requests in front have changed.
-/

namespace OcfCache.IoClass

open Function UserPartList RingLists Runs

/-- `PARTITION_SIZE_MAX`. -/
def partitionSizeMax : Nat := 100

/-- `OCF_IO_CLASS_NAME_MAX`. -/
def ocfIoClassNameMax : Nat := 1024

/-- `OCF_IO_CLASS_PREFETCH`. -/
def ocfIoClassPrefetch : Nat := 33

/-- `OCF_IO_CLASS_PRIO_LOWEST`. -/
def ocfIoClassPrioLowest : Int := 255

/-- `ocf_cache_mode_none`. -/
def ocfCacheModeNone : Int := -1

/-- `ocf_cache_mode_max`. -/
def ocfCacheModeMax : Int := 6

/-- `Inactive`. -/
def inactiveName : List UInt8 := [73, 110, 97, 99, 116, 105, 118, 101]

/-- `struct ocf_mngt_io_class_config`. -/
structure IoClassConfig where
  /-- `class_id`. -/
  classId : Nat
  /-- `max_size`. -/
  maxSize : Nat
  /-- `name`, without it the class is removed. -/
  name : Option (List UInt8)
  /-- `cache_mode`. -/
  cacheMode : Int
  /-- `prio`. -/
  prio : Int
  deriving DecidableEq

/-- `struct ocf_mngt_io_classes_config`. -/
structure IoClassesConfig where
  /-- `config`. -/
  config : List IoClassConfig
  /-- Its length. -/
  length_eq : config.length = ocfUserIoClassMax

/-- What the environment answers. -/
structure Environment where
  /-- There is memory for the backup. -/
  alloc : Bool
  /-- Error of the copy into the backup. -/
  copyError : Int

/-- The loop of `ocf_user_part_is_name_valid`. -/
def nameLoop : List UInt8 → Nat → Bool
  | [], _ => true
  | c :: rest, length =>
    if c < 32 || 126 < c then false
    else if c == 44 || c == 34 then false
    else if ocfIoClassNameMax ≤ length + 1 then false
    else nameLoop rest (length + 1)

/-- `ocf_user_part_is_name_valid`. -/
def ocfUserPartIsNameValid (name : List UInt8) : Bool := nameLoop name 0

/-- `ocf_user_part_is_prio_valid`. -/
def ocfUserPartIsPrioValid (prio : Int) : Bool :=
  0 ≤ prio && prio ≤ ocfIoClassPrioLowest || prio == ocfIoClassPrioPinned

/-- `_ocf_mngt_io_class_validate_cfg`. -/
def ocfMngtIoClassValidateCfg (cfg : IoClassConfig) : Int :=
  if ocfUserIoClassMax ≤ cfg.classId then errInval
  else
    match cfg.name with
    | none => 0
    | some name =>
      if cfg.cacheMode < ocfCacheModeNone ∨ ocfCacheModeMax < cfg.cacheMode then errInval
      else if ocfUserPartIsNameValid name = false then errInval
      else if ocfUserPartIsPrioValid cfg.prio = false then errInval
      else if partitionSizeMax < cfg.maxSize then errInval
      else 0

/-- The configuration of a partition is replaced. -/
def setConfig (s : Cache) (id : Nat) (p : PartConfig) : Cache :=
  { s with config := update s.config id p }

/-- A configuration as a partition that is not valid gets it. -/
def inactive (p : PartConfig) : PartConfig :=
  { p with
    valid := false
    priority := ocfIoClassPrioLowest
    minSize := 0
    maxSize := partitionSizeMax
    name := inactiveName }

/-- `ocf_user_part_set_valid`. -/
def ocfUserPartSetValid (s : Cache) (id : Nat) (valid : Bool) : Cache :=
  if valid ≠ (s.config id).valid then
    if valid then
      { setConfig s id { s.config id with valid := true } with validPartsNo := s.validPartsNo + 1 }
    else { setConfig s id (inactive (s.config id)) with validPartsNo := s.validPartsNo - 1 }
  else s

/-- `_ocf_mngt_count_user_parts_min_size`. -/
def countUserPartsMinSize (s : Cache) : Nat :=
  (forEachUserPart s).foldl
    (fun count p => if (s.config p).valid then count + (s.config p).minSize else count) 0

/-- `_ocf_mngt_set_partition_size`. -/
def ocfMngtSetPartitionSize (s : Cache) (partId min max : Nat) : Cache × Int :=
  if max < min then (s, errInval)
  else if partitionSizeMax < countUserPartsMinSize s + min then (s, errInval)
  else
    let max := if partitionSizeMax < max then partitionSizeMax else max
    (setConfig s partId { s.config partId with minSize := min, maxSize := max }, 0)

/-- `ocf_user_part_set_prio` and the new cache mode. -/
def setPrioMode (s : Cache) (partId : Nat) (prio cacheMode : Int) : Cache :=
  setConfig s partId { s.config partId with priority := prio, cacheMode := cacheMode }

/-- `_ocf_mngt_io_class_configure` with a name; no result when an assertion
fails. -/
def ocfMngtIoClassConfigure (s : Cache) (cfg : IoClassConfig) (name : List UInt8) :
    Option (Cache × Int) :=
  let partId := cfg.classId
  if s.device = false then none
  else if (s.config partId).added = false then some (s, errInval)
  else if name = [] then some (s, errInval)
  else if partId = ocfIoClassUnclassified ∨ partId = ocfIoClassPrefetch then
    if name ≠ (s.config partId).name then some (s, errInval)
    else
      let r := ocfMngtSetPartitionSize s partId 0 cfg.maxSize
      if r.2 ≠ 0 then some (r.1, errInval)
      else some (setPrioMode r.1 partId cfg.prio cfg.cacheMode, 0)
  else
    let s := setConfig s partId { s.config partId with name := name }
    let r := ocfMngtSetPartitionSize s partId 0 cfg.maxSize
    if r.2 ≠ 0 then some (r.1, errInval)
    else
      let s := if (r.1.config partId).valid then r.1 else ocfUserPartSetValid r.1 partId true
      some (setPrioMode s partId cfg.prio cfg.cacheMode, 0)

/-- `_ocf_mngt_io_class_remove`; no result when an assertion fails. -/
def ocfMngtIoClassRemove (s : Cache) (cfg : IoClassConfig) : Option Cache :=
  let partId := cfg.classId
  if s.device = false then none
  else if partId = ocfIoClassUnclassified then some s
  else if (s.config partId).valid = false then some s
  else some (ocfUserPartSetValid s partId false)

/-- `_ocf_mngt_io_class_edit`. -/
def ocfMngtIoClassEdit (s : Cache) (cfg : IoClassConfig) : Option (Cache × Int) :=
  match cfg.name with
  | some name => ocfMngtIoClassConfigure s cfg name
  | none => (ocfMngtIoClassRemove s cfg).map fun s => (s, 0)

/-- The requests are applied up to the first one that is refused. -/
def editLoop : List IoClassConfig → Cache → Option (Cache × Int)
  | [], s => some (s, 0)
  | cfg :: rest, s => (ocfMngtIoClassEdit s cfg).bind fun r =>
    if r.2 ≠ 0 then some r else editLoop rest r.1

/-- The first error of the checks. -/
def validateLoop : List IoClassConfig → Int
  | [] => 0
  | cfg :: rest =>
    let result := ocfMngtIoClassValidateCfg cfg
    if result ≠ 0 then result else validateLoop rest

/-- `user_parts` is copied back: the links of the list, and pointers. -/
def restoreUserParts (s old : Cache) : Cache := { s with next := old.next, prev := old.prev }

/-- `ocf_mngt_cache_io_classes_configure`; no result when an assertion fails. -/
def ocfMngtCacheIoClassesConfigure (env : Environment) (s : Cache) (cfg : IoClassesConfig) :
    Option (Cache × Int) :=
  if s.standby = true then some (s, errCacheStandby)
  else if validateLoop cfg.config ≠ 0 then some (s, validateLoop cfg.config)
  else if env.alloc = false then some (s, errNoMem)
  else if env.copyError ≠ 0 then some (s, env.copyError)
  else (editLoop cfg.config s).map fun r =>
    if r.2 ≠ 0 then (restoreUserParts r.1 s, r.2) else (ocfLstSort r.1, 0)

/-- `ocf_mngt_add_partition_to_cache`. -/
def ocfMngtAddPartitionToCache (s : Cache) (partId : Nat) (name : Option (List UInt8))
    (minSize maxSize : Nat) (priority : Int) (valid : Bool) : Cache × Int :=
  match name with
  | none => (s, errInval)
  | some name =>
    if ocfUserIoClassMax ≤ partId then (s, errInval)
    else if (s.config partId).valid = true then (s, errInval)
    else if maxSize < minSize then (s, errInval)
    else if partitionSizeMax < maxSize then (s, errInval)
    else if ocfIoClassNameMax ≤ name.length then (s, errInval)
    else if partId ∈ forEachUserPart s then (s, errInval)
    else
      let s := setConfig s partId
        { s.config partId with
          name := name
          minSize := minSize
          maxSize := maxSize
          priority := priority
          cacheMode := ocfCacheModeMax }
      let s := ocfLstSort (ocfLstAdd (ocfUserPartSetValid s partId valid) partId)
      (setConfig s partId { s.config partId with added := true }, 0)

/-! ## What the requests ask for -/

/-- The two classes that cannot be renamed. -/
def IoClassConfig.IsDefault (cfg : IoClassConfig) : Prop :=
  cfg.classId = ocfIoClassUnclassified ∨ cfg.classId = ocfIoClassPrefetch

instance (cfg : IoClassConfig) : Decidable cfg.IsDefault :=
  inferInstanceAs (Decidable (cfg.classId = ocfIoClassUnclassified ∨ cfg.classId = ocfIoClassPrefetch))

/-- What a request makes of its class. -/
def IoClassConfig.ask (cfg : IoClassConfig) (p : PartConfig) : PartConfig :=
  match cfg.name with
  | none => if cfg.classId = ocfIoClassUnclassified ∨ p.valid = false then p else inactive p
  | some name =>
    let p := { p with minSize := 0, maxSize := cfg.maxSize, priority := cfg.prio, cacheMode := cfg.cacheMode }
    if cfg.IsDefault then p else { p with name := name, valid := true }

/-- What requests make of the classes, one after another. -/
def askAll (conf : Nat → PartConfig) (cs : List IoClassConfig) : Nat → PartConfig :=
  cs.foldl (fun conf c => update conf c.classId (c.ask (conf c.classId))) conf

/-- The sum of the minimum sizes of valid partitions. -/
def minSizes (parts : List Nat) (conf : Nat → PartConfig) : Nat :=
  parts.foldl (fun count p => if (conf p).valid then count + (conf p).minSize else count) 0

/-- A request is refused: its class does not exist, it has no characters in its
name, it renames a default class, or the minimum sizes are too large. -/
def Refuses (parts : List Nat) (conf : Nat → PartConfig) (c : IoClassConfig) : Prop :=
  ∃ name, c.name = some name ∧ ((conf c.classId).added = false ∨ name = [] ∨
    (c.IsDefault ∧ name ≠ (conf c.classId).name) ∨ partitionSizeMax < minSizes parts conf)

/-- The configuration behind a request that is refused: the name may be there. -/
def refusedConfig (conf : Nat → PartConfig) (c : IoClassConfig) : Nat → PartConfig :=
  match c.name with
  | none => conf
  | some name =>
    if (conf c.classId).added = false ∨ name = [] ∨ c.IsDefault then conf
    else update conf c.classId { conf c.classId with name := name }

/-- No request is refused. -/
def Accepts (parts : List Nat) : (Nat → PartConfig) → List IoClassConfig → Prop
  | _, [] => True
  | conf, c :: rest => ¬ Refuses parts conf c ∧
    Accepts parts (update conf c.classId (c.ask (conf c.classId))) rest

/-- A class is as a request asks for it. -/
def IoClassConfig.Requested (c : IoClassConfig) (p : PartConfig) : Prop :=
  match c.name with
  | none => p.valid = false
  | some name => p.name = name ∧ p.valid = true ∧ p.maxSize = c.maxSize ∧ p.priority = c.prio ∧
      p.cacheMode = c.cacheMode

/-- Two requests ask for the same. -/
def IoClassConfig.Agrees (c d : IoClassConfig) : Prop :=
  c.name = d.name ∧ (c.name ≠ none → c.maxSize = d.maxSize ∧ c.prio = d.prio ∧ c.cacheMode = d.cacheMode)

/-- The requests can all be met: those for one class agree, the first class is
removed only if it is not valid, and default classes are changed only if they
are valid. -/
structure Consistent (conf : Nat → PartConfig) (cs : List IoClassConfig) : Prop where
  /-- Requests for one class. -/
  agree : ∀ c ∈ cs, ∀ d ∈ cs, c.classId = d.classId → c.Agrees d
  /-- Removal of the first class. -/
  unclassified : ∀ c ∈ cs, c.name = none → c.classId = ocfIoClassUnclassified →
    (conf c.classId).valid = false
  /-- Changes of default classes. -/
  isDefault : ∀ c ∈ cs, c.name ≠ none → c.IsDefault → (conf c.classId).valid = true

/-- The requests in front of the first one that is refused, with its name if
that is copied, ask for what is there, and requests that are not refused can
all be met. -/
structure Harmless (parts : List Nat) (conf : Nat → PartConfig) (cs : List IoClassConfig) : Prop where
  /-- A request is refused. -/
  refused : ∀ front c rest, cs = front ++ c :: rest → Accepts parts conf front →
    Refuses parts (askAll conf front) c →
    ∀ p < ocfUserIoClassMax, refusedConfig (askAll conf front) c p = conf p
  /-- No request is refused. -/
  accepted : Accepts parts conf cs → Consistent conf cs

/-- The requests are applied. -/
structure Applies (env : Environment) (s : Cache) (cfg : IoClassesConfig) : Prop where
  /-- The cache is not in standby state. -/
  standby : s.standby = false
  /-- The requests pass their checks. -/
  valid : validateLoop cfg.config = 0
  /-- There is a backup. -/
  alloc : env.alloc = true
  /-- It is filled. -/
  copy : env.copyError = 0

/-- The list holds the partitions that were added. -/
structure WellFormed (s : Cache) : Prop where
  /-- It is a list. -/
  holds : Holds s (forEachUserPart s)
  /-- Its entries. -/
  added : ∀ p, p ∈ forEachUserPart s ↔ p < ocfUserIoClassMax ∧ (s.config p).added = true

/-- The configuration is changed as a whole or not at all. -/
structure AllOrNothing (cfg : IoClassesConfig) (s : Cache) (r : Cache × Int) : Prop where
  /-- An error changes nothing. -/
  failed : r.2 ≠ 0 → (∀ p < ocfUserIoClassMax, r.1.config p = s.config p) ∧
    r.1.validPartsNo = s.validPartsNo ∧ forEachUserPart r.1 = forEachUserPart s
  /-- Without one all requests are met and the list is in order. -/
  configured : r.2 = 0 → (∀ c ∈ cfg.config, c.Requested (r.1.config c.classId)) ∧
    (∀ p, p ∈ forEachUserPart r.1 ↔ p < ocfUserIoClassMax ∧ (r.1.config p).added = true) ∧
    (forEachUserPart r.1).Pairwise fun x y => cmpValid r.1 x y < 0

variable {env : Environment} {s t : Cache} {cfg : IoClassesConfig} {parts : List Nat}
  {conf : Nat → PartConfig}

/-! ## One request -/

/-- Number of valid partitions. -/
def validCount (conf : Nat → PartConfig) : Int :=
  ∑ p ∈ Finset.range ocfUserIoClassMax, if (conf p).valid then 1 else 0

variable {id : Nat}

theorem validCount_update (hid : id < ocfUserIoClassMax) (p : PartConfig) :
    validCount (update conf id p) = validCount conf - (if (conf id).valid then 1 else 0) +
      if p.valid then 1 else 0 := by
  have hmem : id ∈ Finset.range ocfUserIoClassMax := Finset.mem_range.mpr hid
  have hrest : ∑ q ∈ (Finset.range ocfUserIoClassMax).erase id,
      (if ((update conf id p) q).valid then (1 : Int) else 0) =
      ∑ q ∈ (Finset.range ocfUserIoClassMax).erase id, if (conf q).valid then 1 else 0 := by
    refine Finset.sum_congr rfl fun q hq => ?_
    rw [update_of_ne (Finset.ne_of_mem_erase hq)]
  unfold validCount
  rw [← Finset.add_sum_erase _ _ hmem, hrest,
    ← Finset.add_sum_erase _ (fun q => if (conf q).valid then (1 : Int) else 0) hmem,
    update_self]
  omega

/-- The requests change nothing but the configuration and its counter, which
counts the valid partitions. -/
structure Edits (s t : Cache) : Prop where
  /-- `standby`. -/
  standby : t.standby = s.standby
  /-- `device`. -/
  device : t.device = s.device
  /-- The list. -/
  next : t.next = s.next
  /-- The list. -/
  prev : t.prev = s.prev
  /-- `valid_parts_no`. -/
  validPartsNo : t.validPartsNo - validCount t.config = s.validPartsNo - validCount s.config

theorem Edits.refl (s : Cache) : Edits s s := ⟨rfl, rfl, rfl, rfl, rfl⟩

theorem Edits.trans {u : Cache} (h : Edits s t) (h' : Edits t u) : Edits s u :=
  ⟨h'.standby.trans h.standby, h'.device.trans h.device, h'.next.trans h.next, h'.prev.trans h.prev,
    h'.validPartsNo.trans h.validPartsNo⟩

theorem Edits.forEachUserPart (h : Edits s t) : forEachUserPart t = forEachUserPart s := by
  unfold UserPartList.forEachUserPart
  rw [h.next]

variable {p : PartConfig}

theorem edits_setConfig (hid : id < ocfUserIoClassMax)
    (hp : p.valid = (s.config id).valid) : Edits s (setConfig s id p) := by
  refine ⟨rfl, rfl, rfl, rfl, ?_⟩
  unfold setConfig
  simp only
  rw [validCount_update hid, hp]
  omega

theorem edits_setPrioMode (hid : id < ocfUserIoClassMax) {prio cacheMode : Int} :
    Edits s (setPrioMode s id prio cacheMode) := edits_setConfig hid rfl

theorem edits_setValid (hid : id < ocfUserIoClassMax) (valid : Bool) :
    Edits s (ocfUserPartSetValid s id valid) := by
  unfold ocfUserPartSetValid
  cases valid with
  | true =>
    cases hvalid : (s.config id).valid with
    | true => exact Edits.refl s
    | false =>
      refine ⟨rfl, rfl, rfl, rfl, ?_⟩
      simp only [setConfig, ne_eq, Bool.true_eq_false, not_false_eq_true, if_true]
      rw [validCount_update hid, hvalid]
      simp only [Bool.false_eq_true, if_false, if_true]
      omega
  | false =>
    cases hvalid : (s.config id).valid with
    | false => exact Edits.refl s
    | true =>
      refine ⟨rfl, rfl, rfl, rfl, ?_⟩
      simp only [setConfig, ne_eq, Bool.false_eq_true, not_false_eq_true, if_true, if_false]
      rw [validCount_update hid, hvalid]
      simp only [inactive, Bool.false_eq_true, if_false, if_true]
      omega

theorem setPartitionSize_spec (s : Cache) (id : Nat) {max : Nat} (hmax : max ≤ partitionSizeMax) :
    ocfMngtSetPartitionSize s id 0 max =
      if partitionSizeMax < minSizes (forEachUserPart s) s.config then (s, errInval)
      else (setConfig s id { s.config id with minSize := 0, maxSize := max }, 0) := by
  have hcount : countUserPartsMinSize s + 0 = minSizes (forEachUserPart s) s.config := rfl
  unfold ocfMngtSetPartitionSize
  rw [if_neg (Nat.not_lt_zero max), hcount, if_neg (Nat.not_lt.mpr hmax)]

theorem minSizes_rename (id : Nat) (name : List UInt8) :
    minSizes parts (update conf id { conf id with name := name }) = minSizes parts conf := by
  unfold minSizes
  refine List.foldl_ext _ _ 0 fun count p _ => ?_
  by_cases hp : p = id
  · subst hp
    rw [update_self]
  · rw [update_of_ne hp]

/-- What is refused and what is not. -/
structure EditResult (s : Cache) (c : IoClassConfig) (t : Cache) (result : Int) : Prop where
  /-- The frame. -/
  edits : Edits s t
  /-- The request is refused or met. -/
  config : result ≠ 0 ∧ Refuses (forEachUserPart s) s.config c ∧ t.config = refusedConfig s.config c ∨
    result = 0 ∧ ¬ Refuses (forEachUserPart s) s.config c ∧
      t.config = update s.config c.classId (c.ask (s.config c.classId))

variable {c : IoClassConfig}

/-- What one request does to the configuration. -/
theorem ocfMngtIoClassEdit_spec (hvalid : ocfMngtIoClassValidateCfg c = 0)
    (hdevice : s.device = true) :
    ∃ t result, ocfMngtIoClassEdit s c = some (t, result) ∧ EditResult s c t result := by
  have hinval : errInval ≠ 0 := by decide
  have hid : c.classId < ocfUserIoClassMax := by
    by_contra hge
    unfold ocfMngtIoClassValidateCfg at hvalid
    rw [if_pos (by omega)] at hvalid
    exact hinval hvalid
  have hdev : ¬ s.device = false := by
    rw [hdevice]
    decide
  unfold ocfMngtIoClassEdit
  cases hname : c.name with
  | none =>
    have haccept : ¬ Refuses (forEachUserPart s) s.config c := by
      rintro ⟨name, hsome, -⟩
      rw [hname] at hsome
      cases hsome
    simp only [ocfMngtIoClassRemove, if_neg hdev]
    by_cases hfirst : c.classId = ocfIoClassUnclassified
    · rw [if_pos hfirst]
      refine ⟨s, 0, rfl, Edits.refl s, .inr ⟨rfl, haccept, ?_⟩⟩
      simp only [IoClassConfig.ask, hname, hfirst, true_or, if_true, update_eq_self]
    · rw [if_neg hfirst]
      by_cases hactive : (s.config c.classId).valid = false
      · rw [if_pos hactive]
        refine ⟨s, 0, rfl, Edits.refl s, .inr ⟨rfl, haccept, ?_⟩⟩
        simp only [IoClassConfig.ask, hname, hactive, or_true, if_true, update_eq_self]
      · rw [if_neg hactive]
        refine ⟨_, 0, rfl, edits_setValid hid false, .inr ⟨rfl, haccept, ?_⟩⟩
        have hon : (s.config c.classId).valid = true := by simpa using hactive
        simp only [IoClassConfig.ask, hname, hfirst, hon, ocfUserPartSetValid, setConfig, ne_eq,
          Bool.true_eq_false, Bool.false_eq_true, not_false_eq_true, or_false, if_true, if_false]
  | some name =>
    have hmax : c.maxSize ≤ partitionSizeMax := by
      unfold ocfMngtIoClassValidateCfg at hvalid
      rw [if_neg (by omega), hname] at hvalid
      simp only at hvalid
      by_contra hlarge
      simp only [if_pos (show partitionSizeMax < c.maxSize by omega)] at hvalid
      repeat' split at hvalid
      all_goals contradiction
    simp only [ocfMngtIoClassConfigure, if_neg hdev]
    by_cases hadded : (s.config c.classId).added = false
    · rw [if_pos hadded]
      refine ⟨s, errInval, rfl, Edits.refl s, .inl ⟨hinval, ⟨name, hname, .inl hadded⟩, ?_⟩⟩
      simp only [refusedConfig, hname, hadded, true_or, if_true]
    · rw [if_neg hadded]
      by_cases hempty : name = []
      · rw [if_pos hempty]
        refine ⟨s, errInval, rfl, Edits.refl s, .inl ⟨hinval, ⟨name, hname, .inr (.inl hempty)⟩, ?_⟩⟩
        simp only [refusedConfig, hname, hempty, true_or, or_true, if_true]
      · rw [if_neg hempty]
        by_cases hdefault : c.IsDefault
        · have hids : c.classId = ocfIoClassUnclassified ∨ c.classId = ocfIoClassPrefetch := hdefault
          rw [if_pos hids]
          by_cases hrename : name = (s.config c.classId).name
          · rw [if_neg (not_not.mpr hrename), setPartitionSize_spec s c.classId hmax]
            by_cases hsizes : partitionSizeMax < minSizes (forEachUserPart s) s.config
            · simp only [if_pos hsizes, if_pos hinval]
              refine ⟨s, errInval, rfl, Edits.refl s,
                .inl ⟨hinval, ⟨name, hname, .inr (.inr (.inr hsizes))⟩, ?_⟩⟩
              simp only [refusedConfig, hname, hdefault, or_true, if_true]
            · simp only [if_neg hsizes, ne_eq, not_true_eq_false, if_false]
              refine ⟨_, 0, rfl, (edits_setConfig hid (by rfl)).trans (edits_setPrioMode hid),
                .inr ⟨rfl, ?_, ?_⟩⟩
              · rintro ⟨name', hsome, hrefuse⟩
                obtain rfl : name = name' := Option.some.inj (hname.symm.trans hsome)
                rcases hrefuse with h | h | h | h
                · exact hadded h
                · exact hempty h
                · exact h.2 hrename
                · exact hsizes h
              · simp only [setPrioMode, setConfig, update_idem, update_self,
                  IoClassConfig.ask, hname, if_pos hdefault]
          · rw [if_pos hrename]
            refine ⟨s, errInval, rfl, Edits.refl s,
              .inl ⟨hinval, ⟨name, hname, .inr (.inr (.inl ⟨hdefault, hrename⟩))⟩, ?_⟩⟩
            simp only [refusedConfig, hname, hdefault, or_true, if_true]
        · have hids : ¬ (c.classId = ocfIoClassUnclassified ∨ c.classId = ocfIoClassPrefetch) := hdefault
          rw [if_neg hids, setPartitionSize_spec _ c.classId hmax]
          obtain ⟨u, hu⟩ : ∃ u, u = setConfig s c.classId { s.config c.classId with name := name } := ⟨_, rfl⟩
          have hcopied : Edits s u := hu ▸ edits_setConfig hid rfl
          have hsum : minSizes (forEachUserPart u) u.config = minSizes (forEachUserPart s) s.config := by
            rw [hcopied.forEachUserPart, hu]
            exact minSizes_rename c.classId name
          rw [← hu, hsum]
          by_cases hsizes : partitionSizeMax < minSizes (forEachUserPart s) s.config
          · simp only [if_pos hsizes, if_pos hinval]
            refine ⟨u, errInval, rfl, hcopied, .inl ⟨hinval, ⟨name, hname, .inr (.inr (.inr hsizes))⟩, ?_⟩⟩
            have hkeep : ¬ ((s.config c.classId).added = false ∨ name = [] ∨ c.IsDefault) := by tauto
            simp only [refusedConfig, hname, if_neg hkeep, hu, setConfig]
          · simp only [if_neg hsizes, ne_eq, not_true_eq_false, if_false]
            obtain ⟨v, hv⟩ : ∃ v, v = setConfig u c.classId
                { u.config c.classId with minSize := 0, maxSize := c.maxSize } := ⟨_, rfl⟩
            have hsized : Edits s v := hcopied.trans (hv ▸ edits_setConfig hid rfl)
            have hconf : v.config = update s.config c.classId
                { s.config c.classId with name := name, minSize := 0, maxSize := c.maxSize } := by
              rw [hv, hu]
              simp only [setConfig, update_idem, update_self]
            have hvid : v.config c.classId =
                { s.config c.classId with name := name, minSize := 0, maxSize := c.maxSize } := by
              rw [hconf, update_self]
            have haccept : ¬ Refuses (forEachUserPart s) s.config c := by
              rintro ⟨name', hsome, hrefuse⟩
              obtain rfl : name = name' := Option.some.inj (hname.symm.trans hsome)
              rcases hrefuse with h | h | h | h
              · exact hadded h
              · exact hempty h
              · exact hdefault h.1
              · exact hsizes h
            rw [← hv]
            by_cases hon : (v.config c.classId).valid = true
            · rw [if_pos hon]
              refine ⟨_, 0, rfl, hsized.trans (edits_setPrioMode hid), .inr ⟨rfl, haccept, ?_⟩⟩
              rw [hvid] at hon
              simp only [setPrioMode, setConfig, hvid, IoClassConfig.ask, hname, if_neg hdefault]
              rw [hconf, update_idem, ← hon]
            · rw [if_neg hon]
              refine ⟨_, 0, rfl, (hsized.trans (edits_setValid hid true)).trans (edits_setPrioMode hid),
                .inr ⟨rfl, haccept, ?_⟩⟩
              have hoff : true ≠ (v.config c.classId).valid := fun heq => hon heq.symm
              have hset : ocfUserPartSetValid v c.classId true =
                  { setConfig v c.classId { v.config c.classId with valid := true } with
                    validPartsNo := v.validPartsNo + 1 } := by
                unfold ocfUserPartSetValid
                rw [if_pos hoff, if_pos rfl]
              rw [hset]
              simp only [setPrioMode, setConfig, update_self, update_idem, hvid,
                IoClassConfig.ask, hname, if_neg hdefault]
              rw [hconf, update_idem]

/-! ## All requests -/

theorem askAll_append (front rest : List IoClassConfig) :
    askAll conf (front ++ rest) = askAll (askAll conf front) rest := List.foldl_append

variable {cs : List IoClassConfig}

theorem ask_added (c : IoClassConfig) (p : PartConfig) : (c.ask p).added = p.added := by
  unfold IoClassConfig.ask inactive
  cases c.name with
  | none => dsimp only; split <;> rfl
  | some name => dsimp only; split <;> rfl

theorem askAll_added (cs : List IoClassConfig) (p : Nat) : (askAll conf cs p).added = (conf p).added := by
  induction cs generalizing conf with
  | nil => rfl
  | cons c cs ih =>
    unfold askAll at ih ⊢
    rw [List.foldl_cons, ih]
    by_cases hp : p = c.classId
    · rw [hp, update_self, ask_added]
    · rw [update_of_ne hp]

theorem askAll_valid {p : Nat} (h : ∀ c ∈ cs, c.classId = p → ∀ q, (c.ask q).valid = q.valid) :
    (askAll conf cs p).valid = (conf p).valid := by
  induction cs generalizing conf with
  | nil => rfl
  | cons c cs ih =>
    unfold askAll at ih ⊢
    rw [List.foldl_cons, ih fun d hd => h d (List.mem_cons_of_mem c hd)]
    by_cases hp : p = c.classId
    · rw [hp, update_self, h c List.mem_cons_self hp.symm]
    · rw [update_of_ne hp]

theorem accepts_append {front rest : List IoClassConfig} : Accepts parts conf (front ++ rest) ↔
    Accepts parts conf front ∧ Accepts parts (askAll conf front) rest := by
  induction front generalizing conf with
  | nil => simp [Accepts, askAll]
  | cons c front ih =>
    rw [List.cons_append, Accepts, Accepts, ih, and_assoc]
    rfl

theorem refused_unique {front front' rest rest' : List IoClassConfig} {c c' : IoClassConfig}
    (heq : front ++ c :: rest = front' ++ c' :: rest') (h : Accepts parts conf front)
    (h' : Accepts parts conf front') (hc : Refuses parts (askAll conf front) c)
    (hc' : Refuses parts (askAll conf front') c') : front = front' ∧ c = c' := by
  induction front generalizing conf front' with
  | nil =>
    cases front' with
    | nil => exact ⟨rfl, (List.cons.inj heq).1⟩
    | cons d front' => exact absurd ((List.cons.inj heq).1 ▸ hc) h'.1
  | cons d front ih =>
    cases front' with
    | nil => exact absurd ((List.cons.inj heq).1 ▸ hc') h.1
    | cons d' front' =>
      obtain ⟨rfl, hrest⟩ := List.cons.inj heq
      obtain ⟨hfront, hcs⟩ := ih hrest h.2 h'.2 hc hc'
      exact ⟨congrArg (d :: ·) hfront, hcs⟩

/-- Where the requests of a configuration lead. -/
structure LoopResult (s : Cache) (cs : List IoClassConfig) (t : Cache) (result : Int) : Prop where
  /-- The frame. -/
  edits : Edits s t
  /-- A request is refused or all are met. -/
  config : result ≠ 0 ∧ (∃ front c rest, cs = front ++ c :: rest ∧
      Accepts (forEachUserPart s) s.config front ∧
      Refuses (forEachUserPart s) (askAll s.config front) c ∧
      t.config = refusedConfig (askAll s.config front) c) ∨
    result = 0 ∧ Accepts (forEachUserPart s) s.config cs ∧ t.config = askAll s.config cs

theorem editLoop_spec (hvalid : ∀ c ∈ cs, ocfMngtIoClassValidateCfg c = 0)
    (hdevice : s.device = true) :
    ∃ t result, editLoop cs s = some (t, result) ∧ LoopResult s cs t result := by
  induction cs generalizing s with
  | nil => exact ⟨s, 0, rfl, Edits.refl s, .inr ⟨rfl, trivial, rfl⟩⟩
  | cons c cs ih =>
    obtain ⟨u, result, hedit, hu⟩ := ocfMngtIoClassEdit_spec (hvalid c List.mem_cons_self) hdevice
    rw [editLoop, hedit, Option.bind_some]
    cases hu.config with
    | inl hrefused =>
      rw [if_pos hrefused.1]
      exact ⟨u, result, rfl, hu.edits, .inl ⟨hrefused.1, [], c, cs, rfl, trivial, hrefused.2.1, hrefused.2.2⟩⟩
    | inr haccepted =>
      obtain ⟨hzero, haccept, hconf⟩ := haccepted
      simp only [hzero, ne_eq, not_true_eq_false, if_false]
      obtain ⟨t, result', hloop, ht⟩ := ih (fun d hd => hvalid d (List.mem_cons_of_mem c hd))
        (hu.edits.device.trans hdevice)
      refine ⟨t, result', hloop, hu.edits.trans ht.edits, ?_⟩
      have hparts := hu.edits.forEachUserPart
      have hcase := ht.config
      rw [hparts, hconf] at hcase
      cases hcase with
      | inl hrefused =>
        obtain ⟨hne, front, d, rest, hsplit, hfront, hrefuse, htconf⟩ := hrefused
        exact .inl ⟨hne, c :: front, d, rest, congrArg (c :: ·) hsplit, ⟨haccept, hfront⟩, hrefuse, htconf⟩
      | inr hall => exact .inr ⟨hall.1, ⟨haccept, hall.2.1⟩, hall.2.2⟩

variable {c d : IoClassConfig}

theorem Requested.of_agrees (h : c.Agrees d) (hd : d.Requested p) : c.Requested p := by
  obtain ⟨hname, hrest⟩ := h
  unfold IoClassConfig.Requested at hd ⊢
  rw [← hname] at hd
  cases hc : c.name with
  | none =>
    rw [hc] at hd
    exact hd
  | some name =>
    rw [hc] at hd
    obtain ⟨hmax, hprio, hmode⟩ := hrest (by rw [hc]; exact Option.some_ne_none name)
    exact ⟨hd.1, hd.2.1, hd.2.2.1.trans hmax.symm, hd.2.2.2.1.trans hprio.symm,
      hd.2.2.2.2.trans hmode.symm⟩

theorem Requested.agrees (hc : c.Requested p) (hd : d.Requested p) : c.Agrees d := by
  unfold IoClassConfig.Requested at hc hd
  unfold IoClassConfig.Agrees
  cases hcn : c.name with
  | none =>
    rw [hcn] at hc
    cases hdn : d.name with
    | none => exact ⟨rfl, fun hne => absurd rfl hne⟩
    | some name =>
      rw [hdn] at hd
      exact absurd (hc.symm.trans hd.2.1) (by decide)
  | some name =>
    rw [hcn] at hc
    cases hdn : d.name with
    | none =>
      rw [hdn] at hd
      exact absurd (hd.symm.trans hc.2.1) (by decide)
    | some name' =>
      rw [hdn] at hd
      exact ⟨congrArg some (hc.1.symm.trans hd.1), fun _ => ⟨hc.2.2.1.symm.trans hd.2.2.1,
        hc.2.2.2.1.symm.trans hd.2.2.2.1, hc.2.2.2.2.symm.trans hd.2.2.2.2⟩⟩

theorem ask_unclassified (hname : c.name = none)
    (hid : c.classId = ocfIoClassUnclassified) (p : PartConfig) : c.ask p = p := by
  unfold IoClassConfig.ask
  rw [hname]
  exact if_pos (.inl hid)

theorem ask_default (hname : c.name ≠ none) (hdefault : c.IsDefault) (p : PartConfig) :
    (c.ask p).valid = p.valid := by
  unfold IoClassConfig.ask
  cases hc : c.name with
  | none => exact absurd hc hname
  | some name =>
    simp only [if_pos hdefault]

theorem Consistent.same_name (h : Consistent conf cs)
    (hc : c ∈ cs) (hd : d ∈ cs) (hid : c.classId = d.classId) : c.name = d.name :=
  (h.agree c hc d hd hid).1

theorem valid_of_same_name {cs : List IoClassConfig} {c : IoClassConfig}
    (hc : ∀ d ∈ cs, d.classId = c.classId → d.name = c.name)
    (hcase : c.name = none ∧ c.classId = ocfIoClassUnclassified ∨ c.name ≠ none ∧ c.IsDefault) :
    (askAll conf cs c.classId).valid = (conf c.classId).valid := by
  refine askAll_valid fun d hd hid q => ?_
  have hname := hc d hd hid
  cases hcase with
  | inl hremove => rw [ask_unclassified (hname.trans hremove.1) (hid.trans hremove.2)]
  | inr hchange =>
    have hdefault : d.IsDefault := by
      unfold IoClassConfig.IsDefault
      rw [hid]
      exact hchange.2
    exact ask_default (hname ▸ hchange.1) hdefault q

/-- Requests are met together if they do not contradict each other. -/
theorem requested_iff (haccept : Accepts parts conf cs) :
    (∀ c ∈ cs, c.Requested (askAll conf cs c.classId)) ↔ Consistent conf cs := by
  constructor
  · intro hmet
    have hagree : ∀ c ∈ cs, ∀ d ∈ cs, c.classId = d.classId → c.Agrees d := by
      intro c hc d hd hid
      have hdmet := hmet d hd
      rw [← hid] at hdmet
      exact Requested.agrees (hmet c hc) hdmet
    refine ⟨hagree, fun c hc hname hid => ?_, fun c hc hname hdefault => ?_⟩
    · have hvalid := @valid_of_same_name conf cs c (fun d hd hdc => (hagree d hd c hc hdc).1)
        (.inl ⟨hname, hid⟩)
      have hreq := hmet c hc
      unfold IoClassConfig.Requested at hreq
      rw [hname] at hreq
      exact hvalid.symm.trans hreq
    · have hvalid := @valid_of_same_name conf cs c (fun d hd hdc => (hagree d hd c hc hdc).1)
        (.inr ⟨hname, hdefault⟩)
      have hreq := hmet c hc
      unfold IoClassConfig.Requested at hreq
      cases hc' : c.name with
      | none => exact absurd hc' hname
      | some name =>
        rw [hc'] at hreq
        exact hvalid.symm.trans hreq.2.1
  · intro hcons
    -- the requests that were processed are met, by induction from the front
    induction cs using List.reverseRecOn with
    | nil => exact fun c hc => absurd hc List.not_mem_nil
    | append_singleton front d ih =>
      obtain ⟨hfront, hd⟩ := accepts_append.mp haccept
      have hmem : d ∈ front ++ [d] := List.mem_append_right _ (List.mem_singleton_self d)
      have hsub : ∀ c ∈ front, c ∈ front ++ [d] := fun c hc => List.mem_append_left _ hc
      have hconsFront : Consistent conf front :=
        ⟨fun c hc e he => hcons.agree c (hsub c hc) e (hsub e he),
          fun c hc => hcons.unclassified c (hsub c hc), fun c hc => hcons.isDefault c (hsub c hc)⟩
      have hold := ih hfront hconsFront
      have hnew : askAll conf (front ++ [d]) =
          update (askAll conf front) d.classId (d.ask (askAll conf front d.classId)) := by
        rw [askAll_append]
        rfl
      have hsame : ∀ e ∈ front, e.classId = d.classId → e.name = d.name :=
        fun e he hid => hcons.same_name (hsub e he) hmem hid
      have hdmet : d.Requested (d.ask (askAll conf front d.classId)) := by
        cases hname : d.name with
        | none =>
          by_cases hid : d.classId = ocfIoClassUnclassified
          · rw [ask_unclassified hname hid]
            have hvalid := @valid_of_same_name conf front d hsame (.inl ⟨hname, hid⟩)
            unfold IoClassConfig.Requested
            rw [hname]
            exact hvalid.trans (hcons.unclassified d hmem hname hid)
          · unfold IoClassConfig.Requested IoClassConfig.ask
            simp only [hname, hid, false_or]
            split
            · assumption
            · rfl
        | some name =>
          have hne : d.name ≠ none := by
            rw [hname]
            exact Option.some_ne_none name
          by_cases hdefault : d.IsDefault
          · have hvalid := @valid_of_same_name conf front d hsame (.inr ⟨hne, hdefault⟩)
            have hrename : name = (askAll conf front d.classId).name := by
              by_contra hdiff
              exact hd.1 ⟨name, hname, .inr (.inr (.inl ⟨hdefault, hdiff⟩))⟩
            unfold IoClassConfig.Requested IoClassConfig.ask
            simp only [hname, if_pos hdefault]
            exact ⟨hrename.symm, hvalid.trans (hcons.isDefault d hmem hne hdefault), trivial, trivial, trivial⟩
          · unfold IoClassConfig.Requested IoClassConfig.ask
            simp only [hname, if_neg hdefault, and_self]
      intro c hc
      rw [hnew]
      by_cases hid : c.classId = d.classId
      · rw [hid, update_self]
        exact Requested.of_agrees (hcons.agree c hc d hmem hid) hdmet
      · rw [update_of_ne hid]
        have hcf : c ∈ front := by
          cases List.mem_append.mp hc with
          | inl hin => exact hin
          | inr hlast => exact absurd (congrArg IoClassConfig.classId (List.mem_singleton.mp hlast)) hid
        exact hold c hcf

/-! ## The configuration -/

theorem refusedConfig_added (c : IoClassConfig) (p : Nat) :
    (refusedConfig conf c p).added = (conf p).added ∧ (refusedConfig conf c p).valid = (conf p).valid := by
  unfold refusedConfig
  cases c.name with
  | none => exact ⟨rfl, rfl⟩
  | some name =>
    simp only
    split
    · exact ⟨rfl, rfl⟩
    · by_cases hp : p = c.classId
      · subst hp
        rw [update_self]
        exact ⟨rfl, rfl⟩
      · rw [update_of_ne hp]
        exact ⟨rfl, rfl⟩

theorem validateLoop_eq_zero (h : validateLoop cs = 0) :
    ∀ c ∈ cs, ocfMngtIoClassValidateCfg c = 0 := by
  induction cs with
  | nil => exact fun c hc => absurd hc List.not_mem_nil
  | cons c cs ih =>
    rw [validateLoop] at h
    by_cases hzero : ocfMngtIoClassValidateCfg c = 0
    · rw [if_neg (not_not.mpr hzero)] at h
      intro d hd
      cases List.mem_cons.mp hd with
      | inl heq => exact heq ▸ hzero
      | inr hin => exact ih h d hin
    · rw [if_pos hzero] at h
      exact absurd h hzero

theorem Edits.holds {xs : List Nat} (h : Edits s t) (hs : Holds s xs) : Holds t xs := by
  refine ⟨?_, hs.lt⟩
  rw [h.next, h.prev]
  exact hs.ring

theorem sorted_spec (h : WellFormed s) (hedits : Edits s t)
    (hadded : ∀ p, (t.config p).added = (s.config p).added) :
    WellFormed (ocfLstSort t) ∧ SameParts t (ocfLstSort t) ∧
      (forEachUserPart (ocfLstSort t)).Pairwise fun x y => cmpValid (ocfLstSort t) x y < 0 := by
  obtain ⟨hsame, ys, hholds, hperm, hpairs⟩ := ocfLstSort_spec (hedits.holds h.holds)
  have hwalk := hholds.forEachUserPart
  refine ⟨⟨?_, fun p => ?_⟩, hsame, ?_⟩
  · rw [hwalk]
    exact hholds
  · rw [hwalk, hperm.mem_iff, h.added, hsame.config, hadded]
  · rw [hwalk]
    exact hpairs.imp fun hlt => by rw [hsame.cmpValid]; exact hlt

theorem configure_applied (h : WellFormed s) (happly : Applies env s cfg) (hdevice : s.device = true) :
    ∃ r, ocfMngtCacheIoClassesConfigure env s cfg = some r ∧ WellFormed r.1 ∧
      (AllOrNothing cfg s r ↔ Harmless (forEachUserPart s) s.config cfg.config) := by
  obtain ⟨u, result, hloop, hu⟩ := editLoop_spec (validateLoop_eq_zero happly.valid) hdevice
  have hconfigure : ocfMngtCacheIoClassesConfigure env s cfg =
      some (if result ≠ 0 then (restoreUserParts u s, result) else (ocfLstSort u, 0)) := by
    have hstandby : ¬ s.standby = true := by
      rw [happly.standby]
      decide
    have halloc : ¬ env.alloc = false := by
      rw [happly.alloc]
      decide
    unfold ocfMngtCacheIoClassesConfigure
    rw [if_neg hstandby, if_neg (not_not.mpr happly.valid), if_neg halloc,
      if_neg (not_not.mpr happly.copy), hloop, Option.map_some]
  refine ⟨_, hconfigure, ?_⟩
  cases hu.config with
  | inl hrefused =>
    obtain ⟨hne, front, c, rest, hsplit, hfront, hrefuse, hconf⟩ := hrefused
    rw [if_pos hne]
    have hadded : ∀ p, (u.config p).added = (s.config p).added := by
      intro p
      rw [hconf, (refusedConfig_added c p).1, askAll_added]
    have hlist : forEachUserPart (restoreUserParts u s) = forEachUserPart s := rfl
    refine ⟨⟨⟨h.holds.ring, h.holds.lt⟩, fun p => ?_⟩, ?_⟩
    · rw [hlist, h.added]
      simp only [restoreUserParts, hadded]
    · constructor
      · intro hall
        refine ⟨fun front' c' rest' hsplit' hfront' hrefuse' => ?_, fun haccept => ?_⟩
        · obtain ⟨rfl, rfl⟩ := refused_unique (hsplit.symm.trans hsplit') hfront hfront' hrefuse hrefuse'
          rw [← hconf]
          exact (hall.failed hne).1
        · rw [hsplit] at haccept
          exact absurd hrefuse (accepts_append.mp haccept).2.1
      · intro hharmless
        have hconfig : ∀ p < ocfUserIoClassMax, u.config p = s.config p := by
          rw [hconf]
          exact hharmless.refused front c rest hsplit hfront hrefuse
        refine ⟨fun _ => ⟨hconfig, ?_, hlist⟩, fun hzero => absurd hzero hne⟩
        have hcount : validCount u.config = validCount s.config :=
          Finset.sum_congr rfl fun p hp => by rw [hconfig p (Finset.mem_range.mp hp)]
        have hparts := hu.edits.validPartsNo
        rw [hcount] at hparts
        simp only [restoreUserParts]
        omega
  | inr haccepted =>
    obtain ⟨hzero, haccept, hconf⟩ := haccepted
    rw [if_neg (not_not.mpr hzero)]
    have hadded : ∀ p, (u.config p).added = (s.config p).added := by
      intro p
      rw [hconf, askAll_added]
    obtain ⟨hwell, hsame, hpairs⟩ := sorted_spec h hu.edits hadded
    refine ⟨hwell, ?_⟩
    have hmet := requested_iff haccept
    have hconfig : (ocfLstSort u).config = askAll s.config cfg.config := hsame.config.trans hconf
    constructor
    · intro hall
      refine ⟨fun front' c' rest' hsplit' _ hrefuse' => ?_, fun _ => hmet.mp ?_⟩
      · rw [hsplit'] at haccept
        exact absurd hrefuse' (accepts_append.mp haccept).2.1
      · rw [← hconfig]
        exact (hall.configured rfl).1
    · intro hharmless
      refine ⟨fun hne => absurd rfl hne, fun _ => ⟨?_, hwell.added, hpairs⟩⟩
      simp only [hconfig]
      exact hmet.mpr (hharmless.accepted haccept)

theorem configure_refused (h : ¬ Applies env s cfg) : ∃ error,
    ocfMngtCacheIoClassesConfigure env s cfg = some (s, error) ∧ error ≠ 0 := by
  unfold ocfMngtCacheIoClassesConfigure
  by_cases hstandby : s.standby = true
  · rw [if_pos hstandby]
    exact ⟨errCacheStandby, rfl, by decide⟩
  · rw [if_neg hstandby]
    by_cases hvalid : validateLoop cfg.config = 0
    · rw [if_neg (not_not.mpr hvalid)]
      by_cases halloc : env.alloc = false
      · rw [if_pos halloc]
        exact ⟨errNoMem, rfl, by decide⟩
      · rw [if_neg halloc]
        by_cases hcopy : env.copyError = 0
        · exact absurd ⟨by simpa using hstandby, hvalid, by simpa using halloc, hcopy⟩ h
        · rw [if_pos hcopy]
          exact ⟨env.copyError, rfl, hcopy⟩
    · rw [if_pos hvalid]
      exact ⟨validateLoop cfg.config, rfl, hvalid⟩

theorem allOrNothing_of_same {error : Int} (herror : error ≠ 0) : AllOrNothing cfg s (s, error) :=
  ⟨fun _ => ⟨fun _ _ => rfl, rfl, rfl⟩, fun hzero => absurd hzero herror⟩

theorem configure_detached (happly : Applies env s cfg) (hdevice : s.device = false) :
    ocfMngtCacheIoClassesConfigure env s cfg = none := by
  have hpos : 0 < cfg.config.length := by
    rw [cfg.length_eq]
    decide
  obtain ⟨c, rest, hcs⟩ := List.exists_cons_of_length_pos hpos
  have hloop : editLoop cfg.config s = none := by
    rw [hcs, editLoop]
    unfold ocfMngtIoClassEdit ocfMngtIoClassConfigure ocfMngtIoClassRemove
    cases c.name with
    | none => simp [hdevice]
    | some name => simp [hdevice]
  unfold ocfMngtCacheIoClassesConfigure
  rw [if_neg (by simp [happly.standby]), if_neg (not_not.mpr happly.valid),
    if_neg (by simp [happly.alloc]), if_neg (not_not.mpr happly.copy), hloop]
  rfl

/-- A configuration returns unless the cache has no device. It is applied as a
whole or not at all if and only if, in case its requests are applied, those in
front of the first one that is refused ask for what is there, and requests that
are not refused can all be met. -/
theorem configure_allOrNothing_iff (env : Environment) (s : Cache) (cfg : IoClassesConfig)
    (h : WellFormed s) : (s.device = true ∨ ¬ Applies env s cfg →
      (ocfMngtCacheIoClassesConfigure env s cfg).isSome = true) ∧
    ∀ r, ocfMngtCacheIoClassesConfigure env s cfg = some r → (AllOrNothing cfg s r ↔
      (Applies env s cfg → Harmless (forEachUserPart s) s.config cfg.config)) := by
  by_cases happly : Applies env s cfg
  · by_cases hdevice : s.device = true
    · obtain ⟨r, hrun, -, hiff⟩ := configure_applied h happly hdevice
      refine ⟨fun _ => by rw [hrun]; rfl, fun r' hr' => ?_⟩
      obtain rfl := Option.some.inj (hrun.symm.trans hr')
      rw [hiff]
      exact ⟨fun hharmless _ => hharmless, fun hharmless => hharmless happly⟩
    · refine ⟨fun hor => hor.elim (fun hdev => absurd hdev hdevice) (absurd happly), fun r hr => ?_⟩
      rw [configure_detached happly (by simpa using hdevice)] at hr
      cases hr
  · obtain ⟨error, hrun, herror⟩ := configure_refused happly
    refine ⟨fun _ => by rw [hrun]; rfl, fun r hr => ?_⟩
    obtain rfl := Option.some.inj (hrun.symm.trans hr)
    exact iff_of_true (allOrNothing_of_same herror) fun hyes => absurd hyes happly

/-- The list of a cache with all its classes; the first three are valid. -/
def allClasses : List Nat := [33, 0, 1] ++ (List.range' 2 31).reverse

/-- A cache with all classes, of which class 1 was configured. -/
def oneClass : Cache where
  standby := false
  device := true
  validPartsNo := 3
  config p := ⟨if p = 1 then [97] else inactiveName, 0, 100, allClasses.idxOf p < 3, p < ocfUserIoClassMax,
    if p = 1 then 5 else 255, 0⟩
  eviction _ := true
  currSize _ := 0
  next p := (allClasses ++ [invalid]).getD (allClasses.idxOf p + 1) 33
  prev p := (invalid :: allClasses).getD (allClasses.idxOf p) 2

/-- The removal of a class. -/
def removal : IoClassConfig := ⟨1, 0, none, 0, 0⟩

/-- A request with an empty name. -/
def unnamed : IoClassConfig := ⟨2, 0, some [], 0, 0⟩

/-- Removals of one class. -/
def removals : IoClassesConfig := ⟨List.replicate ocfUserIoClassMax removal, List.length_replicate⟩

/-- A removal and requests that are refused. -/
def removalAndUnnamed : IoClassesConfig := ⟨removal :: List.replicate 33 unnamed, by simp [ocfUserIoClassMax]⟩

/-- There is memory. -/
def withMemory : Environment := ⟨true, 0⟩

theorem wellFormed_oneClass : WellFormed oneClass := by
  have hring : Ring oneClass.next oneClass.prev invalid allClasses := ⟨by decide +kernel, by decide +kernel⟩
  have hholds : Holds oneClass allClasses := ⟨hring, by decide⟩
  have hall : ∀ p < ocfUserIoClassMax, p ∈ allClasses := by decide
  have hwalk := hholds.forEachUserPart
  refine ⟨hwalk ▸ hholds, fun p => ?_⟩
  rw [hwalk]
  exact ⟨fun hp => ⟨hholds.lt p hp, decide_eq_true (hholds.lt p hp)⟩, fun hp => hall p hp.1⟩

/-- Removing the class changes the configuration as a whole. -/
theorem configure_allOrNothing_removals : ∃ r,
    ocfMngtCacheIoClassesConfigure withMemory oneClass removals = some r ∧
      AllOrNothing removals oneClass r := by
  have hspec := configure_allOrNothing_iff withMemory oneClass removals wellFormed_oneClass
  obtain ⟨r, hr⟩ := Option.isSome_iff_exists.mp (hspec.1 (.inl rfl))
  refine ⟨r, hr, (hspec.2 r hr).mpr fun _ => ⟨fun front c rest hsplit _ hrefuse => ?_, fun _ => ?_⟩⟩
  · have hc : c ∈ removals.config := by
      rw [hsplit]
      simp
    obtain ⟨name, hname, -⟩ := hrefuse
    rw [List.eq_of_mem_replicate hc] at hname
    cases hname
  · have hall : ∀ c ∈ removals.config, c = removal := fun c hc => List.eq_of_mem_replicate hc
    refine ⟨fun c hc d hd _ => ?_, fun c hc _ hid => ?_, fun c hc hname => ?_⟩
    · rw [hall c hc, hall d hd]
      exact ⟨rfl, fun _ => ⟨rfl, rfl, rfl⟩⟩
    · rw [hall c hc] at hid
      exact absurd hid (by decide)
    · rw [hall c hc] at hname
      exact absurd rfl hname

/-- A request that is refused leaves a class removed. -/
theorem refused_request_keeps_removal : ¬ ∀ (env : Environment) (s : Cache) (cfg : IoClassesConfig),
    WellFormed s → ∀ r, ocfMngtCacheIoClassesConfigure env s cfg = some r → AllOrNothing cfg s r := by
  intro h
  have hvalid : validateLoop removalAndUnnamed.config = 0 := by decide
  have happly : Applies withMemory oneClass removalAndUnnamed := ⟨rfl, hvalid, rfl, rfl⟩
  obtain ⟨r, hrun, -, hiff⟩ := configure_applied wellFormed_oneClass happly rfl
  have hharmless := hiff.mp (h withMemory oneClass removalAndUnnamed wellFormed_oneClass r hrun)
  have haccept : Accepts (forEachUserPart oneClass) oneClass.config [removal] := by
    refine ⟨?_, trivial⟩
    rintro ⟨name, hname, -⟩
    cases hname
  have hrefuse : Refuses (forEachUserPart oneClass) (askAll oneClass.config [removal]) unnamed :=
    ⟨[], rfl, .inr (.inl rfl)⟩
  have hsame := hharmless.refused [removal] unnamed (List.replicate 32 unnamed) rfl haccept hrefuse 1
    (by decide)
  exact absurd (congrArg PartConfig.valid hsame) (by decide)

/-! ## The list over the life of a cache -/

/-- `ocf_user_part_init`. -/
def ocfUserPartInit (s : Cache) : Cache :=
  { s with
    next := fun idx => if idx = invalid then invalid else ocfLstEntryOut
    prev := fun idx => if idx = invalid then invalid else ocfLstEntryOut }

/-- What happens to the user partitions of a cache. -/
inductive Act
  /-- `ocf_mngt_add_partition_to_cache`. -/
  | add (partId : Nat) (name : Option (List UInt8)) (minSize maxSize : Nat) (priority : Int) (valid : Bool)
  /-- `ocf_mngt_cache_io_classes_configure`. -/
  | configure (env : Environment) (cfg : IoClassesConfig)
  /-- Cache lines come and go. -/
  | resize (currSize : Nat → Nat)
  /-- The cache device is attached or detached. -/
  | device (attached : Bool)
  /-- The cache changes its state. -/
  | standby (standby : Bool)

/-- The life of a cache. -/
def life : System Cache Act where
  guard _ _ := True
  step s
    | .add partId name minSize maxSize priority valid =>
      some (ocfMngtAddPartitionToCache s partId name minSize maxSize priority valid).1
    | .configure env cfg => (ocfMngtCacheIoClassesConfigure env s cfg).map Prod.fst
    | .resize currSize => some { s with currSize := currSize }
    | .device attached => some { s with device := attached }
    | .standby standby => some { s with standby := standby }

theorem wellFormed_init (h : ∀ p < ocfUserIoClassMax, (s.config p).added = false) :
    WellFormed (ocfUserPartInit s) := by
  have hholds : Holds (ocfUserPartInit s) [] :=
    ⟨Ring.empty (by simp [ocfUserPartInit]) (by simp [ocfUserPartInit]), fun p hp => absurd hp List.not_mem_nil⟩
  have hwalk := hholds.forEachUserPart
  refine ⟨hwalk ▸ hholds, fun p => ?_⟩
  rw [hwalk]
  refine iff_of_false List.not_mem_nil fun hp => ?_
  have hnot := h p hp.1
  exact absurd (hnot.symm.trans hp.2) (by decide)

theorem setValid_frame (s : Cache) (id : Nat) (valid : Bool) :
    (ocfUserPartSetValid s id valid).next = s.next ∧ (ocfUserPartSetValid s id valid).prev = s.prev ∧
      ∀ p, ((ocfUserPartSetValid s id valid).config p).added = (s.config p).added := by
  have hadded : ∀ (q : PartConfig) p, q.added = (s.config id).added →
      (update s.config id q p).added = (s.config p).added := by
    intro q p hq
    by_cases hp : p = id
    · rw [hp, update_self, hq]
    · rw [update_of_ne hp]
  unfold ocfUserPartSetValid
  split
  · split
    · exact ⟨rfl, rfl, fun p => hadded _ p rfl⟩
    · exact ⟨rfl, rfl, fun p => hadded _ p rfl⟩
  · exact ⟨rfl, rfl, fun _ => rfl⟩

/-- An added class is on the list, in order. -/
theorem WellFormed.add (h : WellFormed s) (partId : Nat) (name : Option (List UInt8))
    (minSize maxSize : Nat) (priority : Int) (valid : Bool) :
    WellFormed (ocfMngtAddPartitionToCache s partId name minSize maxSize priority valid).1 := by
  unfold ocfMngtAddPartitionToCache
  cases name with
  | none => exact h
  | some name =>
    dsimp only
    repeat' split
    all_goals try exact h
    rename_i hid _ _ _ _ hnew
    obtain ⟨u, hu⟩ : ∃ u, u = setConfig s partId
        { s.config partId with
          name := name, minSize := minSize, maxSize := maxSize, priority := priority
          cacheMode := ocfCacheModeMax } := ⟨_, rfl⟩
    rw [← hu]
    have huadded : ∀ p, (u.config p).added = (s.config p).added := by
      intro p
      rw [hu]
      by_cases hp : p = partId
      · simp only [setConfig, hp, update_self]
      · simp only [setConfig, update_of_ne hp]
    have hunext : u.next = s.next ∧ u.prev = s.prev := by
      rw [hu]
      exact ⟨rfl, rfl⟩
    obtain ⟨hnext, hprev, hadded⟩ := setValid_frame u partId valid
    obtain ⟨v, hv⟩ : ∃ v, v = ocfUserPartSetValid u partId valid := ⟨_, rfl⟩
    rw [← hv] at hnext hprev hadded ⊢
    have hring : Ring v.next v.prev invalid (forEachUserPart s) := by
      rw [hnext, hprev, hunext.1, hunext.2]
      exact h.holds.ring
    have hout : partId ∉ invalid :: forEachUserPart s := by
      have hne : partId ≠ invalid := by
        unfold invalid
        omega
      exact fun hmem => (List.mem_cons.mp hmem).elim hne hnew
    have hholds : Holds (ocfLstAdd v partId) (partId :: forEachUserPart s) := by
      refine ⟨hring.insertHead hout, fun p hp => ?_⟩
      cases List.mem_cons.mp hp with
      | inl heq => omega
      | inr hin => exact h.holds.lt p hin
    obtain ⟨hsame, ys, hys, hperm, -⟩ := ocfLstSort_spec hholds
    have hfinal : Holds (setConfig (ocfLstSort (ocfLstAdd v partId)) partId
        { (ocfLstSort (ocfLstAdd v partId)).config partId with added := true }) ys := ⟨hys.ring, hys.lt⟩
    have hwalk := hfinal.forEachUserPart
    refine ⟨hwalk ▸ hfinal, fun p => ?_⟩
    rw [hwalk, hperm.mem_iff, List.mem_cons, h.added]
    by_cases hp : p = partId
    · simp only [hp, setConfig, update_self, true_or, and_true, true_iff]
      omega
    · have hconfig : ((ocfLstSort (ocfLstAdd v partId)).config p).added = (s.config p).added := by
        rw [hsame.config]
        exact (hadded p).trans (huadded p)
      simp only [hp, setConfig, update_of_ne hp, hconfig, false_or]

/-- In every state of its life the list of a cache is a ring that holds the
partitions that were added, each once, and no other. -/
theorem wellFormed_of_reachable (h : ∀ p < ocfUserIoClassMax, (s.config p).added = false)
    (hreach : Reachable life (ocfUserPartInit s) t) : WellFormed t := by
  refine hreach.invariant (fun _ => wellFormed_init h) fun u act v hinv _ _ hstep _ => ?_
  cases act with
  | add partId name minSize maxSize priority valid =>
    obtain rfl := Option.some.inj hstep
    exact hinv.add partId name minSize maxSize priority valid
  | configure env cfg =>
    obtain ⟨r, hr, rfl⟩ := Option.map_eq_some_iff.mp hstep
    by_cases happly : Applies env u cfg
    · by_cases hdevice : u.device = true
      · obtain ⟨r', hr', hwell, -⟩ := configure_applied hinv happly hdevice
        obtain rfl := Option.some.inj (hr'.symm.trans hr)
        exact hwell
      · have hsome := (configure_detached happly (by simpa using hdevice)).symm.trans hr
        cases hsome
    · obtain ⟨error, hrun, -⟩ := configure_refused happly
      obtain rfl := Option.some.inj (hrun.symm.trans hr)
      exact hinv
  | resize currSize =>
    obtain rfl := Option.some.inj hstep
    exact ⟨⟨hinv.holds.ring, hinv.holds.lt⟩, hinv.added⟩
  | device attached =>
    obtain rfl := Option.some.inj hstep
    exact ⟨⟨hinv.holds.ring, hinv.holds.lt⟩, hinv.added⟩
  | standby standby =>
    obtain rfl := Option.some.inj hstep
    exact ⟨⟨hinv.holds.ring, hinv.holds.lt⟩, hinv.added⟩

/-- A cache before its classes are set up. -/
def noClasses : Cache :=
  { oneClass with config := fun _ => ⟨[], 0, 0, false, false, 255, 0⟩, validPartsNo := 0, device := false }

/-- Three classes are added, a fourth is refused, and the device is attached. -/
def setUp : List Act :=
  [.add 0 (some [117]) 0 100 255 true, .add 33 (some [112]) 0 100 255 true, .add 1 (some [97]) 0 100 5 true,
    .add 2 none 0 100 255 true, .device true]

/-- A configuration that is refused behind the removal of class 1: the list is kept. -/
theorem wellFormed_of_reachable_refused : ∃ s t error, Reachable life (ocfUserPartInit noClasses) s ∧
    ocfMngtCacheIoClassesConfigure withMemory s removalAndUnnamed = some (t, error) ∧ error = errInval ∧
    (t.config 1).valid = false ∧ forEachUserPart t = [33, 0, 1] ∧ WellFormed t := by
  have hview : ((setUp.foldlM (checkedStep life fun _ _ => true) (ocfUserPartInit noClasses)).bind fun s =>
      (ocfMngtCacheIoClassesConfigure withMemory s removalAndUnnamed).map fun r =>
        (r.2, (r.1.config 1).valid, forEachUserPart r.1)) = some (errInval, false, [33, 0, 1]) := by decide +kernel
  obtain ⟨s, hs, hview⟩ := Option.bind_eq_some_iff.mp hview
  obtain ⟨⟨t, error⟩, ht, hview⟩ := Option.map_eq_some_iff.mp hview
  simp only [Prod.mk.injEq] at hview
  have hreach := Reachable.of_checked (fun _ _ _ => trivial) hs
  have hstep : life.step s (.configure withMemory removalAndUnnamed) = some t := by simp only [life, ht, Option.map_some]
  exact ⟨s, t, error, hreach, ht, hview.1, hview.2.1, hview.2.2,
    wellFormed_of_reachable (fun _ _ => rfl) (hreach.next _ trivial hstep)⟩

end OcfCache.IoClass
