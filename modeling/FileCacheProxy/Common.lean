import Mathlib.Data.Int.Notation
import Mathlib.Data.Nat.Notation

set_option autoImplicit false

/-! # Return codes (`common.h`) -/

namespace FileCacheProxy

def SUCCESS : ℤ := 0
def ERR_NOT_READY : ℤ := 101
def ERR_PARAM : ℤ := 103
def ERR_NETWORK : ℤ := 104
def ERR_TRACKER : ℤ := 105
def ERR_EV_NEW : ℤ := 106
def ERR_DO_NOT_EXIST : ℤ := 107
def ERR_FILE_OPEN_FAILED : ℤ := 108

def HTTP_OK : ℕ := 200
def HTTP_200 : ℕ := HTTP_OK
def HTTP_400 : ℕ := 400
def HTTP_503 : ℕ := 503

end FileCacheProxy
