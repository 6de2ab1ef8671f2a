import Mathlib.Data.Nat.Notation

set_option autoImplicit false

namespace Hcproxy

/-- A set of epoll events, as `epoll_event::events` holds it. -/
abbrev Events := BitVec 32

def EPOLLIN : Events := 0x001#32
def EPOLLOUT : Events := 0x004#32
def EPOLLERR : Events := 0x008#32
def EPOLLET : Events := 0x80000000#32

def hasBits (bitmask bits : Events) : Bool := bitmask &&& bits == bits

end Hcproxy
