import LazyModules.Address.Path
import LazyModules.Address.Url

/-!
# Addresses

An address names a module: it is a path or a URL that begins with `https://`. Two addresses name the
same module exactly when they are the same text. An import gives a specifier, and `resolve` turns it into
an address, seen from the module that imports.
-/
namespace LazyModules.Address

/-- What every remote address begins with. -/
def remoteScheme : String := "https://"

/-- Whether an address is to be fetched over the network. -/
def isRemote (address : String) : Bool := remoteScheme.toList.isPrefixOf address.toList

/-- Why a specifier leads nowhere. -/
inductive Fault where
  | noSpecifier
  | url (f : Url.Fault)
  deriving DecidableEq, Repr

def Fault.message : Fault → String
  | .noSpecifier => "An import needs somewhere to import from."
  | .url f => f.message

/-- The address that a specifier stands for in the module `importer`. A remote specifier stands for
itself, everything else is relative to the importer, and only a local importer decodes percent escapes. -/
def resolve (importer specifier : String) : Except Fault String :=
  if isRemote specifier then .ok specifier
  else if isRemote importer then
    match Url.join importer.toList specifier.toList with
    | .ok cs => .ok (String.ofList cs)
    | .error f => .error (.url f)
  else if specifier.isEmpty then .error .noSpecifier
  else
    let folder := Path.folder importer.toList
    .ok (String.ofList (Path.normalize (Path.append folder (Text.Percent.decode specifier).toList)))

end LazyModules.Address
