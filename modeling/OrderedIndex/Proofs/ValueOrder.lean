/-
  OrderedIndex/Proofs/ValueOrder.lean
  ===================================
  **The order of values is a total order.**

  Values are compared by type and then by content.  Every content is as good as a
  byte string (`content`): for integers the eight bytes of the distance from the
  smallest one, for texts their UTF-8 form.  So the order is the lexicographic
  one on rank and content (`compare_eq_then`), and what it owes its users comes
  from the orders of numbers and of byte strings: it is transitive, and only equal
  values compare equal.
-/
import OrderedIndex.Key.Component
import OrderedIndex.Proofs.ByteOrder

namespace OrderedIndex

/-! ### Integers -/

namespace Component

theorem int64_bounds (n : Int64) :
    Int64.minValue.toInt ≤ n.toInt ∧ n.toInt - Int64.minValue.toInt < (Bytes.capacity 8 : Nat) := by
  have hlo : Int64.minValue.toInt = -9223372036854775808 := rfl
  have hcap : Bytes.capacity 8 = 18446744073709551616 := rfl
  have h1 := n.le_toInt
  have h2 := n.toInt_lt
  rw [hlo, hcap]
  constructor <;> omega

theorem distance_lt (n : Int64) : distance n < Bytes.capacity 8 := by
  have h := int64_bounds n
  simp only [distance]
  omega

theorem distance_lt_distance {m n : Int64} : distance m < distance n ↔ m < n := by
  have hm := int64_bounds m
  have hn := int64_bounds n
  rw [Int64.lt_iff_toInt_lt]
  simp only [distance]
  omega

theorem distance_inj {m n : Int64} : distance m = distance n ↔ m = n := by
  have hm := int64_bounds m
  have hn := int64_bounds n
  rw [← Int64.toInt_inj]
  simp only [distance]
  omega

theorem compare_distance (m n : Int64) : compare (distance m) (distance n) = compare m n := by
  rcases h : compare m n with _ | _ | _
  · exact Nat.compare_eq_lt.2 (distance_lt_distance.2 (Std.compare_eq_lt.1 h))
  · exact Nat.compare_eq_eq.2 (distance_inj.2 (Std.LawfulEqOrd.eq_of_compare h))
  · exact Nat.compare_eq_gt.2 (distance_lt_distance.2 (Std.compare_eq_gt.1 h))

end Component

/-! ### Values -/

namespace Value

theorem isNull_iff {v : Value} : v.isNull = true ↔ v = .null := by
  cases v <;> simp [isNull, type?]

/-- What a value holds besides its type, as bytes in the order of that type. -/
def content : Value → Bytes
  | null => []
  | bool b => [if b then 1 else 0]
  | integer n => Bytes.bigEndian 8 (Component.distance n)
  | text s | clob s => Bytes.utf8 s
  | bytes b | blob b => b

theorem compare_bool_content (a b : Bool) :
    compare (bool a).content (bool b).content = compare a b := by
  cases a <;> cases b <;> rfl

theorem compare_integer_content (m n : Int64) :
    compare (integer m).content (integer n).content = compare m n := by
  have h := Bytes.compare_bigEndian (Component.distance_lt m) (Component.distance_lt n) [] []
  simpa [content, Component.compare_distance] using h

theorem compare_eq_then (v w : Value) :
    compare v w = (compare v.rank w.rank).then (compare v.content w.content) := by
  cases v <;> cases w
  case bool.bool a b => exact (compare_bool_content a b).symm
  case integer.integer m n => exact (compare_integer_content m n).symm
  all_goals rfl

instance : Std.TransOrd Value := by
  have h :
      (compare : Value → Value → Ordering) = compareLex (compareOn rank) (compareOn content) := by
    funext v w
    exact compare_eq_then v w
  rw [Std.TransOrd, h]
  infer_instance

theorem content_inj {v w : Value} (hr : v.rank = w.rank) (hc : v.content = w.content) : v = w := by
  cases v <;> cases w
  case null.null => rfl
  case bool.bool a b => cases a <;> cases b <;> first | rfl | cases hc
  case integer.integer m n =>
    have h := congrArg Bytes.toNat hc
    simp only [content, Bytes.toNat_bigEndian (Component.distance_lt _)] at h
    rw [Component.distance_inj.1 h]
  case text.text s t => rw [Bytes.utf8_inj.1 hc]
  case clob.clob s t => rw [Bytes.utf8_inj.1 hc]
  case bytes.bytes a b => exact congrArg bytes hc
  case blob.blob a b => exact congrArg blob hc
  all_goals cases hr

instance : Std.LawfulEqOrd Value where
  eq_of_compare {v w} h := by
    rw [compare_eq_then, Ordering.then_eq_eq] at h
    exact content_inj (Nat.compare_eq_eq.1 h.1) (Std.LawfulEqOrd.eq_of_compare h.2)

end Value
end OrderedIndex
