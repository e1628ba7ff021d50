/-!
# Vectors

Vectors of four binary32 components. Lengths, dot and cross products look at the first three
components only, in the type `Triple`. Sums of products are taken from left to right, each step
rounded.
-/

namespace VectorScript

/-! ## Three components -/

structure Triple where
  x : Float32
  y : Float32
  z : Float32

namespace Triple

def dot (a b : Triple) : Float32 := a.x * b.x + a.y * b.y + a.z * b.z

def norm (a : Triple) : Float32 := (a.dot a).sqrt

def cross (a b : Triple) : Triple :=
  ⟨a.y * b.z - a.z * b.y, a.z * b.x - a.x * b.z, a.x * b.y - a.y * b.x⟩

def scale (a : Triple) (s : Float32) : Triple := ⟨a.x * s, a.y * s, a.z * s⟩

/-- Divides every component by the norm. -/
def normalized (a : Triple) : Triple :=
  let n := a.norm
  ⟨a.x / n, a.y / n, a.z / n⟩

end Triple

/-! ## Four components -/

structure Vec4 where
  x : Float32
  y : Float32
  z : Float32
  w : Float32
  deriving DecidableEq

namespace Vec4

def zero : Vec4 := ⟨0, 0, 0, 0⟩

instance : Inhabited Vec4 := ⟨zero⟩

def xyz (v : Vec4) : Triple := ⟨v.x, v.y, v.z⟩

/-- A direction has no fourth component. -/
def ofDirection (d : Triple) : Vec4 := ⟨d.x, d.y, d.z, 0⟩

def map (f : Float32 → Float32) (v : Vec4) : Vec4 := ⟨f v.x, f v.y, f v.z, f v.w⟩

def zipWith (f : Float32 → Float32 → Float32) (a b : Vec4) : Vec4 :=
  ⟨f a.x b.x, f a.y b.y, f a.z b.z, f a.w b.w⟩

def add : Vec4 → Vec4 → Vec4 := zipWith (· + ·)

def sub : Vec4 → Vec4 → Vec4 := zipWith (· - ·)

def neg : Vec4 → Vec4 := map (-·)

def scale (v : Vec4) (s : Float32) : Vec4 := v.map (· * s)

/-- Numeric equality of all components: zeros of both signs are equal, a NaN is not. -/
def equals (a b : Vec4) : Bool := a.x == b.x && a.y == b.y && a.z == b.z && a.w == b.w

def toList (v : Vec4) : List Float32 := [v.x, v.y, v.z, v.w]

/-- The component at an index. -/
def get (v : Vec4) (i : Fin 4) : Float32 :=
  match i with
  | 0 => v.x
  | 1 => v.y
  | 2 => v.z
  | 3 => v.w

/-- Replaces the component at an index. -/
def set (v : Vec4) (i : Fin 4) (s : Float32) : Vec4 :=
  match i with
  | 0 => { v with x := s }
  | 1 => { v with y := s }
  | 2 => { v with z := s }
  | 3 => { v with w := s }

theorem get_set (v : Vec4) (i j : Fin 4) (s : Float32) :
    (v.set i s).get j = if i = j then s else v.get j := by
  match i, j with
  | 0, 0 | 0, 1 | 0, 2 | 0, 3 | 1, 0 | 1, 1 | 1, 2 | 1, 3
  | 2, 0 | 2, 1 | 2, 2 | 2, 3 | 3, 0 | 3, 1 | 3, 2 | 3, 3 => rfl

end Vec4

end VectorScript
