/-
  OrderedIndex/Proofs/Cbor/Item.lean
  ==================================
  **Sequences of items are read back**: the chunks of a string and the elements of
  an array, of definite and of indefinite length.

  The reader of a sequence of indefinite length counts its rounds down along the
  bytes that were there at the beginning.  No item is empty, so these outlast the
  sequence (`length_le_of_begins`).
-/
import OrderedIndex.Cbor.Item
import OrderedIndex.Proofs.Cbor.Header

namespace OrderedIndex.Cbor

theorem readItem_of_read {bs rest : Bytes} {h : Header} (hr : Header.read bs = some (h, rest))
    (ht : ∀ n, h ≠ .tag n) : readItem bs = some (h, rest) := by
  cases bs with
  | nil => cases hr
  | cons b bs =>
    rw [readItem, readItem.go, hr]
    cases h with
    | tag n => exact absurd rfl (ht n)
    | _ => rfl

theorem readItem_write {major n : Nat} {h : Header} (hm : major < 8) (hn : n < Bytes.capacity 8)
    (hh : Header.ofParts? major (Header.argumentParts n).1 (some n) = some h)
    (ht : ∀ n, h ≠ .tag n) :
    ReadsAs readItem (Header.write major n) h := by
  intro t
  apply readItem_of_read _ ht
  rw [Header.read_write hm hn, hh]
  rfl

theorem readItem_writeIndefinite {major : Nat} {h : Header} (hm : major < 8)
    (hh : Header.ofParts? major 31 none = some h) (ht : ∀ n, h ≠ .tag n) :
    ReadsAs readItem (Header.writeIndefinite major) h := by
  intro t
  apply readItem_of_read _ ht
  rw [Header.read_writeIndefinite hm, hh]
  rfl

/-! ### Bytes in front of a stop -/

/-- The bytes begin with a header that does not end a content. -/
def Begins (bs : Bytes) : Prop := ∀ t, ∃ h rest, Header.read (bs ++ t) = some (h, rest) ∧ h ≠ .stop

theorem begins_append {bs : Bytes} (h : Begins bs) (more : Bytes) : Begins (bs ++ more) := by
  intro t
  rw [List.append_assoc]
  exact h (more ++ t)

theorem begins_write {major n : Nat} (hm : major < 7) (hn : n < Bytes.capacity 8) :
    Begins (Header.write major n) := by
  intro t
  rw [Header.read_write (by omega) hn]
  match major, hm with
  | 0, _ | 1, _ | 2, _ | 3, _ | 4, _ | 5, _ | 6, _ => exact ⟨_, _, rfl, Header.noConfusion⟩

theorem length_pos_of_begins {bs : Bytes} (h : Begins bs) : 0 < bs.length := by
  cases bs with
  | nil =>
    obtain ⟨h, rest, hr, -⟩ := h []
    cases hr
  | cons b bs => simp

theorem length_le_of_begins {items : List Bytes} (h : ∀ bs ∈ items, Begins bs) :
    items.length ≤ items.flatten.length := by
  induction items with
  | nil => simp
  | cons bs items ih =>
    rw [List.forall_mem_cons] at h
    have hpos := length_pos_of_begins h.1
    have hle := ih h.2
    simp only [List.length_cons, List.flatten_cons, List.length_append]
    omega

/-! ### Chunks -/

namespace StringKind

def major : StringKind → Nat
  | bytes => 2
  | text => 3

def header : StringKind → Option Nat → Header
  | bytes => .bytes
  | text => .text

end StringKind

def chunk (kind : StringKind) (bs : Bytes) : Bytes := Header.write kind.major bs.length ++ bs

theorem read_chunk (kind : StringKind) {bs : Bytes} (h : bs.length < Bytes.capacity 8) (t : Bytes) :
    Header.read (chunk kind bs ++ t) = some (kind.header (some bs.length), bs ++ t) := by
  rw [chunk, List.append_assoc, Header.read_write (by cases kind <;> decide) h]
  cases kind <;> rfl

theorem begins_chunk (kind : StringKind) {bs : Bytes} (h : bs.length < Bytes.capacity 8) :
    Begins (chunk kind bs) :=
  begins_append (begins_write (by cases kind <;> decide) h) bs

theorem readChunks_go (kind : StringKind) {cs : List Bytes}
    (hcs : ∀ c ∈ cs, c.length < Bytes.capacity 8) {rounds : Bytes}
    (hr : cs.length < rounds.length) (t : Bytes) :
    readChunks.go kind rounds 0 ((cs.map (chunk kind)).flatten ++ Header.stopByte :: t) =
      some (cs, t) := by
  induction cs generalizing rounds with
  | nil =>
    cases rounds with
    | nil => simp at hr
    | cons _ rounds =>
      rw [List.map_nil, List.flatten_nil, List.nil_append, readChunks.go, Header.read_stopByte]
      rfl
  | cons c cs ih =>
    rw [List.forall_mem_cons] at hcs
    cases rounds with
    | nil => simp at hr
    | cons _ rounds =>
      have hc := take?_append c ((cs.map (chunk kind)).flatten ++ Header.stopByte :: t)
      have htail := ih hcs.2 (Nat.lt_of_succ_lt_succ hr)
      rw [List.map_cons, List.flatten_cons, List.append_assoc, readChunks.go, read_chunk kind hcs.1]
      cases kind <;> simp [StringKind.header, StringKind.length?, hc, htail]

theorem readChunks_none (kind : StringKind) {cs : List Bytes}
    (hcs : ∀ c ∈ cs, c.length < Bytes.capacity 8) (t : Bytes) :
    readChunks kind none ((cs.map (chunk kind)).flatten ++ Header.stopByte :: t) =
      some (cs, t) := by
  have hb : ∀ bs ∈ cs.map (chunk kind), Begins bs := by
    intro bs hbs
    obtain ⟨c, hc, rfl⟩ := List.mem_map.1 hbs
    exact begins_chunk kind (hcs c hc)
  have hle := length_le_of_begins hb
  rw [List.length_map] at hle
  apply readChunks_go kind hcs
  simp only [List.length_append, List.length_cons]
  omega

/-! ### Elements -/

variable {α : Type} {element : Bytes → Option (α × Bytes)} {written : α → Bytes}

theorem readElements_counted {as : List α} (h : ∀ a ∈ as, ReadsAs element (written a) a)
    (t : Bytes) :
    readElements.counted element as.length ((as.map written).flatten ++ t) = some (as, t) := by
  induction as with
  | nil => rfl
  | cons a as ih =>
    rw [List.forall_mem_cons] at h
    rw [List.map_cons, List.flatten_cons, List.append_assoc, List.length_cons,
      readElements.counted, h.1]
    simp [ih h.2]

theorem readElements_untilStop {as : List α} (h : ∀ a ∈ as, ReadsAs element (written a) a)
    (hb : ∀ a ∈ as, Begins (written a)) {rounds : Bytes} (hr : as.length < rounds.length)
    (t : Bytes) :
    readElements.untilStop element rounds ((as.map written).flatten ++ Header.stopByte :: t) =
      some (as, t) := by
  induction as generalizing rounds with
  | nil =>
    cases rounds with
    | nil => simp at hr
    | cons _ rounds =>
      rw [List.map_nil, List.flatten_nil, List.nil_append,
        readElements.untilStop, Header.read_stopByte]
  | cons a as ih =>
    rw [List.forall_mem_cons] at h hb
    cases rounds with
    | nil => simp at hr
    | cons _ rounds =>
      have htail := ih h.2 hb.2 (Nat.lt_of_succ_lt_succ hr)
      rw [List.map_cons, List.flatten_cons, List.append_assoc, readElements.untilStop, h.1]
      -- an element does not begin with a stop
      obtain ⟨header, rest, hread, hstop⟩ := hb.1 ((as.map written).flatten ++ Header.stopByte :: t)
      rw [hread]
      cases header with
      | stop => exact absurd rfl hstop
      | _ => simp [htail]

theorem readElements_none {as : List α} (h : ∀ a ∈ as, ReadsAs element (written a) a)
    (hb : ∀ a ∈ as, Begins (written a)) (t : Bytes) :
    readElements element none ((as.map written).flatten ++ Header.stopByte :: t) =
      some (as, t) := by
  have hle : as.length ≤ (as.map written).flatten.length := by
    rw [← List.length_map written]
    exact length_le_of_begins (List.forall_mem_map.2 hb)
  apply readElements_untilStop h hb
  simp only [List.length_append, List.length_cons]
  omega

end OrderedIndex.Cbor
