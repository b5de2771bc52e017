/-! Keys, the components of labels, and their order. -/
namespace Clausal

/-- One component of a label. -/
inductive Key where
  /-- A free name, such as a region's or a thing's in a puzzle. -/
  | name (text : String)
  /-- An index, such as a layer's. -/
  | index (i : Int)
  /-- A grid cell. -/
  | point (x y : Int)
  /-- The part a variable plays in an encoding. -/
  | role (text : String)
deriving DecidableEq, Repr, Inhabited

namespace Key

/-- The index that stands for a count. Indices have 64 bits with a sign, so counts from `2 ^ 63` up to
`2 ^ 64` go to the negative ones. -/
def ofCount (n : Nat) : Key :=
  .index (Int.bmod n 0x10000000000000000)

theorem ofCount_of_lt {n : Nat} (h : n < 0x8000000000000000) : ofCount n = .index n := by
  rw [ofCount, Int.bmod_eq_of_le (by omega) (by omega)]

theorem ofCount_inj {m n : Nat} (hm : m < 0x10000000000000000) (hn : n < 0x10000000000000000)
    (h : ofCount m = ofCount n) : m = n := by
  rw [ofCount, ofCount, index.injEq, Int.bmod, Int.bmod] at h
  omega

/-- The text of a name. -/
def name? : Key → Option String
  | .name text => some text
  | _ => none

/-- The value of an index. -/
def index? : Key → Option Int
  | .index i => some i
  | _ => none

/-- The place of the kind of a key: names come first, then indices, points and roles. -/
def rank : Key → Nat
  | .name _ => 0
  | .index _ => 1
  | .point _ _ => 2
  | .role _ => 3

/-- The first number in a key. -/
def major : Key → Int
  | .index i => i
  | .point x _ => x
  | _ => 0

/-- The second number in a key. -/
def minor : Key → Int
  | .point _ y => y
  | _ => 0

/-- The text in a key. -/
def text : Key → String
  | .name s | .role s => s
  | _ => ""

/-- Keys are ordered by kind, then by content; texts by code point. -/
protected def compare : Key → Key → Ordering :=
  compareLex (compareOn rank) <| compareLex (compareOn major) <|
    compareLex (compareOn minor) (compareOn text)

instance : Ord Key := ⟨Key.compare⟩

theorem eq_of_parts {a b : Key} (hr : a.rank = b.rank) (hx : a.major = b.major)
    (hy : a.minor = b.minor) (ht : a.text = b.text) : a = b := by
  cases a <;> cases b <;> simp_all [rank, major, minor, text]

instance : Std.TransOrd Key := by
  show Std.TransCmp Key.compare
  unfold Key.compare
  infer_instance

instance : Std.LawfulEqOrd Key where
  eq_of_compare {a b} h := by
    change Key.compare a b = .eq at h
    simp only [Key.compare, compareLex_eq_eq, compareOn, Std.LawfulEqOrd.compare_eq_iff_eq] at h
    exact eq_of_parts h.1 h.2.1 h.2.2.1 h.2.2.2

/-- Whether one key comes before another. -/
def before (a b : Key) : Bool :=
  compare a b == .lt

theorem before_iff {a b : Key} : a.before b = true ↔ compare a b = .lt :=
  beq_iff_eq

theorem before_asymm {a b : Key} (h : a.before b = true) : b.before a = false := by
  rw [before_iff, ← Std.OrientedCmp.gt_iff_lt] at h
  rw [← Bool.not_eq_true, before_iff, h]
  rintro ⟨⟩

theorem before_or_before {a b : Key} (h : a ≠ b) : a.before b = true ∨ b.before a = true := by
  rw [before_iff, before_iff, ← Std.OrientedCmp.gt_iff_lt (a := a)]
  cases hcmp : compare a b with
  | lt => exact .inl rfl
  | eq => exact absurd (Std.LawfulEqOrd.eq_of_compare hcmp) h
  | gt => exact .inr rfl

/-- The written form of a key. -/
def render : Key → String
  | .name text => text
  | .index i => toString i
  | .point x y => "(" ++ toString x ++ "," ++ toString y ++ ")"
  | .role text => "#" ++ text

end Key
end Clausal
