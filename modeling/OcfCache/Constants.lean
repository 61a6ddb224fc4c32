import Mathlib.Algebra.GroupWithZero.Nat

/-!
# Constants shared by the modules

The limits and error codes that several parts of the library use, under the names of its headers.
An error code is the negative number a function returns.
-/

namespace OcfCache

/-- `-OCF_ERR_INVAL`. -/
def errInval : Int := -1000000

/-- `-OCF_ERR_NO_MEM`. -/
def errNoMem : Int := -1000005

/-- `-OCF_ERR_NO_LOCK`. -/
def errNoLock : Int := -1000006

/-- `-OCF_ERR_IO`. -/
def errIo : Int := -1000033

/-- `-OCF_ERR_CACHE_STANDBY`. -/
def errCacheStandby : Int := -1000049

/-- `-OCF_ERR_CACHE_NOT_STANDBY`. -/
def errCacheNotStandby : Int := -1000054

/-- `PAGE_SIZE`. -/
def pageSize : Nat := 4096

/-- `OCF_CORE_NUM`, the core id of an unmapped line. -/
def ocfCoreNum : Nat := 4096

/-- `OCF_CACHE_LINE_MAX`, the bound checked by `ocf_metadata_init_variable_size`. -/
def ocfCacheLineMax : Nat := 2 ^ 29 - 2

/-- `OCF_USER_IO_CLASS_MAX`. -/
def ocfUserIoClassMax : Nat := 34

/-- `OCF_IO_CLASS_UNCLASSIFIED`. -/
def ocfIoClassUnclassified : Nat := 0

/-- `OCF_IO_CLASS_PRIO_PINNED`. -/
def ocfIoClassPrioPinned : Int := -1

/-- `OCF_NUM_GLOBAL_META_LOCKS`. -/
def ocfNumGlobalMetaLocks : Nat := 2 ^ 2

/-- `MAX_TRIM_RQ_SIZE`. -/
def maxTrimRqSize : Nat := 512 * 1024

/-- `MAX_STACK_TAB_SIZE`. -/
def maxStackTabSize : Nat := 32

/-- `MAX_PASSIVE_IO_SIZE`. -/
def maxPassiveIoSize : Nat := 32 * 2 ^ 20

end OcfCache
