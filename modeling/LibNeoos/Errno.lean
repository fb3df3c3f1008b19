import LibNeoos.Lib.Futex
/-!
# Error codes

The library's calls return the negated code. `Wakeup.rc` is what `futex_wait`
and `futex_wait_timeout` return.
-/

namespace LibNeoos

@[simp] abbrev EINTR : Int := 4
@[simp] abbrev EBADF : Int := 9
@[simp] abbrev EAGAIN : Int := 11
@[simp] abbrev EBUSY : Int := 16
@[simp] abbrev EINVAL : Int := 22
@[simp] abbrev ETIMEDOUT : Int := 110

/-- What a wait that ends this way returns. -/
def Lib.Wakeup.rc : Lib.Wakeup → Int
  | .woken => 0
  | .again => -EAGAIN
  | .interrupted => -EINTR
  | .timeout => -ETIMEDOUT

/-- A pointer argument, as far as the callee looks at it. -/
inductive Ptr
  | null
  | obj
  deriving DecidableEq, Repr

end LibNeoos
