import LazyModules.CommandLine

/-!
# The program

Copies the part of the real disk that a run can reach into a world, performs the run in that world, prints
what it printed and writes the snapshot that it left. There is no network here: remote modules come from
the snapshot, and any other remote module is unreachable.
-/
namespace LazyModules.CommandLine

/-- Copies what lies at a place of the real disk, be it a folder or a file. -/
def observe (d : Disk) (place : List String) : IO Disk := do
  try
    let bytes ← IO.FS.readBinFile ("/" ++ String.intercalate "/" place)
    return d.put place (.raw bytes.toList)
  catch e =>
    match e with
    | .inappropriateType _ _ _ => return d.makeFolder place
    | _ => return d

/-- Copies what lies at a path, and on the way to it. -/
def observePath (d : Disk) (path : String) : IO Disk := do
  if Disk.hasNul path then return d
  let start := if path.toList.head? = some '/' then [] else d.current
  let place := Disk.placeFrom start path
  let mut d := d
  for n in List.range place.length do
    if d.hasFolder (place.take n) then
      d ← observe d (place.take (n + 1))
  return d

def importsOf (address text : String) : List String :=
  ((Imports.read text).getD []).filterMap fun i => (Address.resolve address i.specifier).toOption

/-- Copies the modules at addresses and all that they import. -/
partial def gather (snapshot : List (List Text.Point × Document)) (seen : List String) (d : Disk) :
    List String → IO Disk
  | [] => return d
  | address :: rest => do
    if seen.contains address then gather snapshot seen d rest else
    let d ← if Address.isRemote address then pure d else observePath d address
    let text := match Table.find? snapshot (Text.pointsOf address) with
      | some (.text s) => some (Text.legible s)
      | _ => (d.readText address).toOption
    let next := (text.map (importsOf address)).getD []
    gather snapshot (address :: seen) d (next ++ rest)

def worldFor (o : Options) : IO World := do
  let current := Disk.placeFrom [] (toString (← IO.currentDir))
  let d ← observePath ⟨[], [[]], current, true⟩ "."
  let d ← match cachePath o with
    | some path => observePath d path
    | none => pure d
  let (_, library) := Library.load ⟨.empty (cachePath o), .empty false, ⟨d, [], []⟩⟩
  return ⟨← gather library.cache.persisted [] d [o.program], [], []⟩

def writeSnapshot (o : Options) (w : World) : IO Unit := do
  match cachePath o with
  | none => return ()
  | some path =>
    match w.disk.readData path with
    | .ok (.text s) => IO.FS.writeFile path s
    | _ => return ()

end LazyModules.CommandLine

open LazyModules in
/-- Does what the arguments ask for, in the real world. -/
def main (args : List String) : IO UInt32 := do
  let result ← match CommandLine.parse args with
    | .ok (.run o) => do
      let result := CommandLine.run o (← CommandLine.worldFor o)
      CommandLine.writeSnapshot o result.world
      pure result
    | _ => pure (CommandLine.perform args ⟨.empty, [], []⟩)
  IO.print result.output
  IO.eprint result.errors
  return UInt32.ofNat (result.status.getD 0)
