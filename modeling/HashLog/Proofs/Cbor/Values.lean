import HashLog.Proofs.Cbor.Heads
import HashLog.Proofs.Number.Narrowing
/-!
Values are read as they were written: numbers, strings, lists and the fields of a map. Each law says
that a reader takes exactly the bytes of a value and fails where the stream breaks off inside them, so
a format built of such values has both properties.
-/
namespace HashLog.Cbor

namespace Head

variable {head : Head} {argument : Nat} {bytes : List UInt8}

/-- A number takes the narrowest format that gives all its bits back. -/
theorem delimits_float (bits : UInt64) : Reader.head.Delimits (float bits).encode (float bits) := by
  change Reader.head.Delimits (writeFloat bits) (float bits)
  unfold writeFloat
  split
  · rename_i narrow found
    have fits : narrow < 256 ^ 2 := FloatFormat.narrow?_lt (by decide) found
    exact delimits_follow 7 25 (by decide) (by decide) fits (fun _ => rfl)
      (congrArg (fun bits => some (float bits)) (FloatFormat.widen_of_narrow? found))
  · split
    · rename_i narrow found
      have fits : narrow < 256 ^ 4 := FloatFormat.narrow?_lt (by decide) found
      exact delimits_follow 7 26 (by decide) (by decide) fits (fun _ => rfl)
        (congrArg (fun bits => some (float bits)) (FloatFormat.widen_of_narrow? found))
    · exact delimits_follow 7 27 (by decide) (by decide) bits.toNat_lt
        (fun _ => rfl) (by simp [ofArgument?])

theorem ne_nil_of_delimits (delimits : Reader.head.Delimits bytes head) : bytes ≠ [] := by
  rintro rfl
  exact absurd (delimits.reads []) (by simp [Reader.head, read?])

end Head

namespace Reader

variable {α σ : Type} {bytes more : List UInt8} {header : Head} {value : α}

/-- A reader for which the stream is the fuel. -/
private theorem delimits_fueled {looped : List UInt8 → Reader α} (nonempty : bytes ≠ [])
    (empty : looped [] = failure)
    (each : ∀ byte fuel, (looped (byte :: fuel)).Delimits bytes value) :
    Delimits (do looped (← get)) bytes value := by
  constructor
  · intro rest
    change looped (bytes ++ rest) (bytes ++ rest) = _
    obtain ⟨byte, fuel, same⟩ := List.exists_cons_of_ne_nil (l := bytes ++ rest) (by simp [nonempty])
    have read := (each byte fuel).reads rest
    rw [same] at read ⊢
    exact read
  · intro front back whole rest
    change looped front front = none
    -- a reader that ran out of fuel before it read a byte has failed as it should
    cases front with
    | nil => rw [empty]; rfl
    | cons byte fuel => exact (each byte fuel).cut _ back whole rest

theorem delimits_untagged (head : Reader.head.Delimits bytes header)
    (plain : ∀ number, header ≠ .tag number) : untagged.Delimits bytes header := by
  refine delimits_fueled (Head.ne_nil_of_delimits head) rfl fun byte fuel => head.map ?_
  cases header with
  | tag number => exact absurd rfl (plain number)
  | _ => rfl

/-! ## Numbers -/

theorem delimits_uint {number : Nat} (fits : number < UInt64.size) :
    integer.Delimits (Head.uint number).encode number :=
  have head := Head.delimits_encode rfl fits
  delimits_fueled (Head.ne_nil_of_delimits head) rfl fun _ _ => head.map rfl

theorem delimits_nint {number : Nat} (fits : number < UInt64.size) :
    integer.Delimits (Head.nint number).encode (-1 - number) :=
  have head := Head.delimits_encode rfl fits
  delimits_fueled (Head.ne_nil_of_delimits head) rfl fun _ _ => head.map rfl

theorem delimits_natBelow {number bound : Nat} (fits : number < UInt64.size) (below : number < bound) :
    (natBelow bound).Delimits (Head.uint number).encode number := by
  refine (delimits_uint fits).map ?_
  have accepted : ((0 : Int) ≤ number && (number : Int) < bound) = true := by simpa using below
  simp only [check, accepted]
  rfl

theorem delimits_byte (byte : UInt8) : Reader.byte.Delimits (Head.uint byte.toNat).encode byte := by
  have small := byte.toNat_lt
  refine (delimits_natBelow (by simp only [UInt64.size]; omega) small).map ?_
  simp

theorem delimits_float (bits : UInt64) : float.Delimits (Head.float bits).encode bits :=
  (delimits_untagged (Head.delimits_float bits) (by simp)).map rfl

/-! ## Strings and lists -/

theorem delimits_times {item : Reader α} {write : α → List UInt8} {values : List α}
    (each : ∀ value ∈ values, item.Delimits (write value) value) :
    (times values.length item).Delimits (values.flatMap write) values := by
  induction values with
  | nil => exact .pure []
  | cons value rest ih =>
    have first := each value List.mem_cons_self
    have others := ih fun value member => each value (List.mem_cons_of_mem _ member)
    exact first.bind (others.map rfl)

end Reader

end HashLog.Cbor
