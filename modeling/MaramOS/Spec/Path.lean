import MaramOS.Spec.Basic

/-! Paths are text; only their components matter, except that the root is
recognised by its spelling `/`. -/

namespace MaramOS

/-- `str::split('/')` -/
def splitSlash : Str → List Str
  | [] => [[]]
  | c :: cs =>
    if c = 0x2F then [] :: splitSlash cs
    else match splitSlash cs with
      | [] => [[c]]
      | w :: ws => (c :: w) :: ws

structure Path where
  text : Str

namespace Path

def isRoot (p : Path) : Bool := p.text == [0x2F]

def components (p : Path) : List Str := (splitSlash p.text).filter fun c => !c.isEmpty && c != [0x2E]

def fromVec (parts : List Str) : Path := ⟨0x2F :: parts.flatMap (· ++ [0x2F])⟩

def parent (p : Path) : Path := fromVec p.components.dropLast

def name (p : Path) : Str := p.components.getLast?.getD [0x2F]

end Path

end MaramOS
