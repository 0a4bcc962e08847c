import Dynarec.Dispatcher
import Dynarec.Region

namespace Dynarec

inductive Content
  | region (r : Region)
  -- One block for each sub-mode, the same at every offset. The first that is listed counts.
  | blocks (bs : List (SubMode × Block))

structure Mapping where
  base : UInt32
  size : UInt32
  content : Content

structure CodeMap where
  compiler : Compiler
  -- Where ranges overlap, the first counts.
  mappings : List Mapping
  pageFaults : List Fault
  requests : Array Request

namespace Content

def pick (bs : List (SubMode × Block)) (s : SubMode) : Block :=
  (bs.lookup s).getD (.advance s.text s.mode 1)

def region? : Content → Option Region
  | region r => some r
  | blocks _ => none

end Content

namespace Mapping

/-- The offset of an address from the base. The range may go round the end of the address space. -/
def offset (m : Mapping) (address : UInt32) : UInt32 := address - m.base

def contains (m : Mapping) (address : UInt32) : Bool := m.offset address < m.size

def modifyRegion (f : Region → Region) (m : Mapping) : Mapping :=
  match m.content with
  | .region r => { m with content := .region (f r) }
  | .blocks _ => m

end Mapping

namespace CodeMap

def new (compiler : Compiler) (mappings : List Mapping) : CodeMap := ⟨compiler, mappings, [], #[]⟩

def log (map : CodeMap) (requests : List Request) : CodeMap :=
  { map with requests := map.requests.appendList requests }

def splitAt? (address : UInt32) : List Mapping → Option (List Mapping × Mapping × List Mapping)
  | [] => none
  | m :: rest =>
    if m.contains address then some ([], m, rest)
    else (splitAt? address rest).map fun (before, found, after) => (m :: before, found, after)

def fetch (map : CodeMap) (before : List Mapping) (m : Mapping) (after : List Mapping)
    (address : UInt32) (s : SubMode) : Block × CodeMap :=
  match m.content with
  | .blocks bs => (Content.pick bs s, map)
  | .region r =>
    let f := r.fetch map.compiler s (m.offset address)
    (f.block, { map.log f.requests with
      compiler := f.compiler
      mappings := before ++ { m with content := .region f.region } :: after })

def lookup (space : Space) (address : UInt32) (map : CodeMap) : Lookup CodeMap Block :=
  let map := map.log [.lookup space address]
  match map.pageFaults with
  | fault :: rest => .pageFault fault { map with pageFaults := rest }
  | [] =>
    match splitAt? address map.mappings with
    | none => .notCode map
    | some (before, m, after) => .code (map.fetch before m after address)

instance : CodeMemory CodeMap Block := ⟨lookup⟩

def modifyRegion (map : CodeMap) (i : Nat) (f : Region → Region) : CodeMap :=
  { map with mappings := map.mappings.modify i (·.modifyRegion f) }

end CodeMap

end Dynarec
