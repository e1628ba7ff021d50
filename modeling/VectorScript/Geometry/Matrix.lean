import VectorScript.Geometry.Vector

/-!
# Matrices

Four by four matrices of binary32 numbers, held by columns, and the transforms that the function
library offers. A product with a vector adds the columns, each scaled by its component, from left
to right.
-/

namespace VectorScript

/-- A matrix by its columns. -/
structure Mat4 where
  c0 : Vec4
  c1 : Vec4
  c2 : Vec4
  c3 : Vec4
  deriving DecidableEq

namespace Mat4

def identity : Mat4 := ⟨⟨1, 0, 0, 0⟩, ⟨0, 1, 0, 0⟩, ⟨0, 0, 1, 0⟩, ⟨0, 0, 0, 1⟩⟩

instance : Inhabited Mat4 := ⟨identity⟩

def map (f : Float32 → Float32) (m : Mat4) : Mat4 :=
  ⟨m.c0.map f, m.c1.map f, m.c2.map f, m.c3.map f⟩

def add (a b : Mat4) : Mat4 := ⟨a.c0.add b.c0, a.c1.add b.c1, a.c2.add b.c2, a.c3.add b.c3⟩

def sub (a b : Mat4) : Mat4 := ⟨a.c0.sub b.c0, a.c1.sub b.c1, a.c2.sub b.c2, a.c3.sub b.c3⟩

def neg : Mat4 → Mat4 := map (-·)

def scale (m : Mat4) (s : Float32) : Mat4 := m.map (· * s)

def equals (a b : Mat4) : Bool :=
  a.c0.equals b.c0 && a.c1.equals b.c1 && a.c2.equals b.c2 && a.c3.equals b.c3

def mulVec (m : Mat4) (v : Vec4) : Vec4 :=
  (m.c3.scale v.w).add ((m.c2.scale v.z).add ((m.c1.scale v.y).add (m.c0.scale v.x)))

def mul (a b : Mat4) : Mat4 := ⟨a.mulVec b.c0, a.mulVec b.c1, a.mulVec b.c2, a.mulVec b.c3⟩

def columns (m : Mat4) : List Vec4 := [m.c0, m.c1, m.c2, m.c3]

/-- The column at an index. -/
def get (m : Mat4) (i : Fin 4) : Vec4 :=
  match i with
  | 0 => m.c0
  | 1 => m.c1
  | 2 => m.c2
  | 3 => m.c3

/-- Replaces the column at an index. -/
def set (m : Mat4) (i : Fin 4) (v : Vec4) : Mat4 :=
  match i with
  | 0 => { m with c0 := v }
  | 1 => { m with c1 := v }
  | 2 => { m with c2 := v }
  | 3 => { m with c3 := v }

theorem get_set (m : Mat4) (i j : Fin 4) (v : Vec4) :
    (m.set i v).get j = if i = j then v else m.get j := by
  match i, j with
  | 0, 0 | 0, 1 | 0, 2 | 0, 3 | 1, 0 | 1, 1 | 1, 2 | 1, 3
  | 2, 0 | 2, 1 | 2, 2 | 2, 3 | 3, 0 | 3, 1 | 3, 2 | 3, 3 => rfl

def transpose (m : Mat4) : Mat4 :=
  ⟨⟨m.c0.x, m.c1.x, m.c2.x, m.c3.x⟩, ⟨m.c0.y, m.c1.y, m.c2.y, m.c3.y⟩,
    ⟨m.c0.z, m.c1.z, m.c2.z, m.c3.z⟩, ⟨m.c0.w, m.c1.w, m.c2.w, m.c3.w⟩⟩

/-! ## Transforms -/

/-- The transform with the given linear part, by columns, and shift. -/
def affine (a b c shift : Triple) : Mat4 :=
  ⟨.ofDirection a, .ofDirection b, .ofDirection c,
    ⟨shift.x, shift.y, shift.z, 1⟩⟩

/-- Moves every point by the same amount. -/
def shifting (d : Triple) : Mat4 := affine ⟨1, 0, 0⟩ ⟨0, 1, 0⟩ ⟨0, 0, 1⟩ d

def scaling (s : Triple) : Mat4 := affine ⟨s.x, 0, 0⟩ ⟨0, s.y, 0⟩ ⟨0, 0, s.z⟩ ⟨0, 0, 0⟩

/-- Radians in a degree. -/
def radian : Float32 := 0.017453292519943295

/-- Rotation by an angle in degrees about an axis. -/
def rotation (degrees : Float32) (axis : Triple) : Mat4 :=
  let angle := degrees * radian
  if angle == 0 then identity
  else
    let n := axis.normalized
    let (x, y, z) := (n.x, n.y, n.z)
    let s := angle.sin
    let c := angle.cos
    let k := 1 - c
    affine
      ⟨x * x + (1 - x * x) * c, x * y * k + z * s, x * z * k - y * s⟩
      ⟨x * y * k - z * s, y * y + (1 - y * y) * c, y * z * k + x * s⟩
      ⟨x * z * k + y * s, y * z * k - x * s, z * z + (1 - z * z) * c⟩
      ⟨0, 0, 0⟩

/-- The cofactors of the linear part, which carry normals through the transform. -/
def normalTransform (m : Mat4) : Mat4 :=
  let (a, b, c) := (m.c0.xyz, m.c1.xyz, m.c2.xyz)
  affine (b.cross c) (c.cross a) (a.cross b) ⟨0, 0, 0⟩

/-- Mirror through the plane with the given normal and point. -/
def reflection (normal point : Triple) : Mat4 :=
  let n := normal.normalized
  let entry (one a b : Float32) : Float32 := one - a * b * 2
  affine
    ⟨entry 1 n.x n.x, entry 0 n.y n.x, entry 0 n.z n.x⟩
    ⟨entry 0 n.x n.y, entry 1 n.y n.y, entry 0 n.z n.y⟩
    ⟨entry 0 n.x n.z, entry 0 n.y n.z, entry 1 n.z n.z⟩
    (n.scale (2 * n.dot point))

/-! ## Inverse -/

/-- The signed sum of six triple products that makes one entry of the adjugate: the minor of nine
entries, every product taken in the given order. -/
def minor (a₁ a₂ a₃ b₁ b₂ b₃ c₁ c₂ c₃ : Float32) : Float32 :=
  a₁ * b₂ * c₃ - a₁ * b₃ * c₂ - b₁ * a₂ * c₃ + b₁ * a₃ * c₂ + c₁ * a₂ * b₃ - c₁ * a₃ * b₂

/-- The same minor with every sign turned. -/
def negMinor (a₁ a₂ a₃ b₁ b₂ b₃ c₁ c₂ c₃ : Float32) : Float32 :=
  -a₁ * b₂ * c₃ + a₁ * b₃ * c₂ + b₁ * a₂ * c₃ - b₁ * a₃ * c₂ - c₁ * a₂ * b₃ + c₁ * a₃ * b₂

/-- The inverse by cofactors; a matrix of determinant zero has none. -/
def inverse? (m : Mat4) : Option Mat4 :=
  let ⟨⟨m0, m1, m2, m3⟩, ⟨m4, m5, m6, m7⟩, ⟨m8, m9, m10, m11⟩, ⟨m12, m13, m14, m15⟩⟩ := m
  let adjugate : Mat4 :=
    ⟨⟨minor m5 m6 m7 m9 m10 m11 m13 m14 m15, negMinor m1 m2 m3 m9 m10 m11 m13 m14 m15,
      minor m1 m2 m3 m5 m6 m7 m13 m14 m15, negMinor m1 m2 m3 m5 m6 m7 m9 m10 m11⟩,
    ⟨negMinor m4 m6 m7 m8 m10 m11 m12 m14 m15, minor m0 m2 m3 m8 m10 m11 m12 m14 m15,
      negMinor m0 m2 m3 m4 m6 m7 m12 m14 m15, minor m0 m2 m3 m4 m6 m7 m8 m10 m11⟩,
    ⟨minor m4 m5 m7 m8 m9 m11 m12 m13 m15, negMinor m0 m1 m3 m8 m9 m11 m12 m13 m15,
      minor m0 m1 m3 m4 m5 m7 m12 m13 m15, negMinor m0 m1 m3 m4 m5 m7 m8 m9 m11⟩,
    ⟨negMinor m4 m5 m6 m8 m9 m10 m12 m13 m14, minor m0 m1 m2 m8 m9 m10 m12 m13 m14,
      negMinor m0 m1 m2 m4 m5 m6 m12 m13 m14, minor m0 m1 m2 m4 m5 m6 m8 m9 m10⟩⟩
  let determinant :=
    m0 * adjugate.c0.x + m1 * adjugate.c1.x + m2 * adjugate.c2.x + m3 * adjugate.c3.x
  if determinant == 0 then none else some (adjugate.scale (1 / determinant))

end Mat4

end VectorScript
