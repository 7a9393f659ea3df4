import CoolPotOS.Machine

namespace CoolPotOS

inductive TaskStatus
  | create | running | wait | death | start | futex | out | ioWait | zombie
  deriving DecidableEq, Repr

end CoolPotOS
