import SigV4.NginxModule.HttpBlock

/-!
# What an `http` block says

Read off the text of the configuration: the mode a block itself states, the levels around
a location, and the credentials. Nothing here depends on the order in which NGINX calls
the handlers.
-/

namespace SigV4

/-- The modes as they are written. -/
def modeOfText (arg : Bytes) : Option Mode :=
  if arg = bytes "on" then some .on
  else if arg = bytes "off" then some .off
  else if arg = bytes "shadow" then some .shadow
  else none

namespace Block

/-- The mode that stands in the block itself. -/
def ownMode : Block → Option Mode
  | done => none
  | directive .verify args _ => args.head?.bind modeOfText
  | directive _ _ rest => rest.ownMode
  | block _ rest => rest.ownMode

/-- The arguments of all `sigv4_verify_credential` directives, in file order. -/
def credentialArgs : Block → List (List Bytes)
  | done => []
  | directive .credential args rest => args :: rest.credentialArgs
  | directive _ _ rest => rest.credentialArgs
  | block inner rest => inner.credentialArgs ++ rest.credentialArgs

/-- The `n`-th block in a block. -/
def nth : Block → Nat → Option Block
  | done, _ => none
  | directive _ _ rest, n => rest.nth n
  | block inner _, 0 => some inner
  | block _ rest, n + 1 => rest.nth n

/-- The block at a path, after all blocks around it: the innermost is first. -/
def levels (b : Block) : List Nat → Option (List Block)
  | [] => some [b]
  | n :: path => (b.nth n).bind fun inner => (inner.levels path).map (· ++ [b])

end Block

/-- The mode of a location: that of the nearest level to state one. -/
def nearestMode (levels : List Block) : Mode := (levels.findSome? Block.ownMode).getD .off

namespace Locations

/-- The `n`-th configuration, with those nested in it. -/
def nth : Locations → Nat → Option (LocConf × Locations)
  | done, _ => none
  | block loc inner _, 0 => some (loc, inner)
  | block _ _ rest, n + 1 => rest.nth n

/-- The configuration of the location at a path. -/
def find : Locations → List Nat → Option LocConf
  | _, [] => none
  | locations, n :: path => (locations.nth n).bind fun (loc, inner) =>
    if path.isEmpty then some loc else inner.find path

end Locations

end SigV4
