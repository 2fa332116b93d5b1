/-
  OrderedIndex/Proofs/Check/People.lean
  =====================================
  **The people table**: what its columns take, and what its two indexes ask for.

  Each of the indexes is on one ascending column.  So its order is that of the values at
  the column, and of the row ids where these agree (`KeyLayout.precedes_iff_of_single`).
-/
import OrderedIndex.Check.People
import OrderedIndex.Proofs.Table.Scan

namespace OrderedIndex

/-! ### Layouts of one column -/

namespace KeyLayout

variable {l : KeyLayout} {c : Nat} {a b row : Row} {v w : Value}

theorem encodable_of_single (hl : l.parts = [⟨c, .ascending⟩]) (hv : row.value? c = some v)
    (hindexable : v.isIndexable = true) : l.Encodable row := by
  intro p hp
  rw [hl, List.mem_singleton] at hp
  subst hp
  exact ⟨v, hv, hindexable⟩

theorem sameKey_iff_of_single (hl : l.parts = [⟨c, .ascending⟩]) :
    l.SameKey a b ↔ a.value? c = b.value? c := by
  rw [SameKey, hl, List.forall_mem_singleton]

/-- The order of an index on one column. -/
theorem precedes_iff_of_single (hl : l.parts = [⟨c, .ascending⟩]) (ha : a.value? c = some v)
    (hb : b.value? c = some w) :
    l.Precedes a b ↔ (compare v w).then (compare a.id b.id) = .lt := by
  have hcompare : l.compareRows a b = compare v w := by
    rw [compareRows, hl]
    simp only [compareParts, RowView.value?, ha, hb, Direction.apply, Ordering.then_eq]
  rw [Precedes, hcompare]

end KeyLayout

namespace People

/-! ### Columns -/

/-- There is a value for each column, and it may stand there. -/
def Fits (values : List Value) : Prop :=
  List.Forall₂ (fun c v => Column.accepts c v = true) columns values

instance : DecidablePred Fits := fun values =>
  inferInstanceAs (Decidable (List.Forall₂ (fun c v => Column.accepts c v = true) columns values))

/-- The values that fit are those of a person, perhaps without e-mail address or age. -/
theorem fits_iff {values : List Value} :
    Fits values ↔ ∃ name email age, values = person name email age := by
  constructor
  · intro h
    obtain ⟨v, _, hv, h₁, rfl⟩ := List.forall₂_cons_left_iff.1 h
    obtain ⟨w, _, hw, h₂, rfl⟩ := List.forall₂_cons_left_iff.1 h₁
    obtain ⟨x, _, hx, h₃, rfl⟩ := List.forall₂_cons_left_iff.1 h₂
    obtain rfl := List.forall₂_nil_left_iff.1 h₃
    obtain ⟨name, rfl⟩ : ∃ name, v = .text name := by
      cases v <;> simp [Column.accepts, Column.new, Column.notNull, Value.type?] at hv ⊢
    obtain ⟨email, rfl⟩ : ∃ email : Option String, w = (email.map .text).getD .null := by
      cases w with
      | null => exact ⟨none, rfl⟩
      | text email => exact ⟨some email, rfl⟩
      | _ => cases hw
    obtain ⟨age, rfl⟩ : ∃ age : Option Int64, x = (age.map .integer).getD .null := by
      cases x with
      | null => exact ⟨none, rfl⟩
      | integer age => exact ⟨some age, rfl⟩
      | _ => cases hx
    exact ⟨name, email, age, rfl⟩
  · rintro ⟨name, email, age, rfl⟩
    refine .cons rfl (.cons ?_ (.cons ?_ .nil))
    · cases email <;> rfl
    · cases age <;> rfl

/-! ### Indexes -/

def byAge : Index :=
  ⟨⟨⟨1⟩, ageIndex, "people", false,
    [⟨(Column.new 2 "age" .integer).withSelectivity 10, .ascending⟩]⟩, ⟨1⟩, 3, .default⟩

def byEmail : Index :=
  ⟨⟨⟨2⟩, emailIndex, "people", true,
    [⟨(Column.new 1 "email" .varchar).withSelectivity 100, .ascending⟩]⟩, ⟨2⟩, 3, .default⟩

theorem name_byAge : byAge.name = ageIndex := rfl

theorem name_byEmail : byEmail.name = emailIndex := rfl

theorem parts_byAge : byAge.layout.parts = [⟨2, .ascending⟩] := rfl

theorem parts_byEmail : byEmail.layout.parts = [⟨1, .ascending⟩] := rfl

/-- Persons without e-mail address may repeat. -/
theorem permits_byEmail_iff {row : Row} :
    byEmail.config.repeatPolicy.Permits byEmail.layout row ↔ row.value? 1 = some .null := by
  show (∃ p ∈ byEmail.layout.parts, row.value? p.column = some .null) ↔ _
  rw [parts_byEmail]
  simp

theorem indexes_indexed : indexed.table.indexes = [byAge, byEmail] := rfl

/-- The table begins in order, without rows. -/
theorem sound_indexed : indexed.Sound [] := by
  have hspares : ∀ c ∈ [Command.createIndex ageIndex [("age", .ascending)] false,
      .createIndex emailIndex [("email", .ascending)] true], c.Spares "people" := by
    decide
  obtain ⟨rows, h⟩ := Session.sound_runAll ⟨1⟩ "people" columns .default hspares
  have hrows : indexed.table.rows indexed.store = .ok [] := rfl
  cases hrows.symm.trans h.rows_eq
  exact h

/-- The values of a person at the columns of the indexes. -/
theorem exists_values {values : List Value} (h : Fits values) :
    ∃ email age : Value, values[1]? = some email ∧
      values[2]? = some age ∧ email.isIndexable = true ∧ age.isIndexable = true := by
  obtain ⟨name, email, age, rfl⟩ := fits_iff.1 h
  refine ⟨_, _, rfl, rfl, ?_, ?_⟩
  · cases email <;> rfl
  · cases age <;> rfl

end People
end OrderedIndex
