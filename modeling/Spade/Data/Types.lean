import Mathlib.Data.List.Basic

set_option autoImplicit false

/-!
# Errors of the data blocks

The errors of `blocks/data/src/common/error.rs` that the blocks below raise.
-/
namespace Spade.Data

inductive DataError where
  | unsupportedScheme (scheme : String)
  | badUri (uri reason : String)
  | unauthorized (reason : String)
  | backend (e : String)
  | io (e : String)
  | badArgument (name reason : String)
  deriving DecidableEq

end Spade.Data
