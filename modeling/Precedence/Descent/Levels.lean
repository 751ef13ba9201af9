import Precedence.Descent.Statement

/-! Descents with a number of levels to spend. Each expression and each block costs one level, so
the recursion of the rules ends with the levels. -/
namespace Precedence
open Parse

namespace Descent

/-- The descent with a number of levels to spend. -/
def within (g : Grammar) : Nat → Descent
  | 0 => ⟨fun _ => tooDeep,tooDeep⟩
  | n+1 => ⟨fun power => nested (expression g (within g n) power),nested (body g (within g n))⟩

end Descent
end Precedence
