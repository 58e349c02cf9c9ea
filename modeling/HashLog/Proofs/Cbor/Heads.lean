import HashLog.Bytes.EndianLaws
import HashLog.Cbor.Reader
/-!
Heads are read as they were written, whatever follows them, and not at all where the stream ends inside
them. `Reads` says that a reader takes exactly certain bytes off the front of any stream, `Delimits` that
it also fails on every stream that breaks off inside these bytes; readers that run one after the other
take their bytes one after the other (`Reads.bind`, `Delimits.bind`), so the law of a format follows the
order of its fields.
-/
namespace HashLog.Cbor

/-- The reader takes exactly these bytes off any stream and returns this value. -/
def Reader.Reads {α : Type} (reader : Reader α) (bytes : List UInt8) (value : α) : Prop :=
  ∀ rest, reader (bytes ++ rest) = some (value, rest)

/-- The bytes show their own end: the reader takes them off any stream and fails on a stream that breaks
off inside them. -/
structure Reader.Delimits {α : Type} (reader : Reader α) (bytes : List UInt8) (value : α) :
    Prop where
  reads : reader.Reads bytes value
  cut : ∀ front back, front ++ back = bytes → back ≠ [] → reader front = none

namespace Reader.Reads

variable {α β : Type} {reader : Reader α} {next : α → Reader β} {bytes more : List UInt8}
  {value : α} {result : β}

theorem pure (value : α) : Reads (Pure.pure value) [] value := fun _ => rfl

theorem bind (first : reader.Reads bytes value) (second : (next value).Reads more result) :
    Reads (reader >>= next) (bytes ++ more) result := by
  intro rest
  rw [List.append_assoc]
  change (reader (bytes ++ (more ++ rest))).bind (fun taken => next taken.1 taken.2) = _
  rw [first]
  exact second rest

/-- Reading the rest of a format after its last field. -/
theorem map (first : reader.Reads bytes value) (second : next value = Pure.pure result) :
    Reads (reader >>= next) bytes result := by
  have last : (next value).Reads [] result := second ▸ Reads.pure result
  simpa using first.bind last

theorem raw (bytes : List UInt8) : Reads (Reader.raw bytes.length) bytes bytes := by
  intro rest
  simp [Reader.raw]

end Reader.Reads

namespace Reader.Delimits

variable {α β : Type} {reader : Reader α} {next : α → Reader β} {bytes more : List UInt8}
  {value : α} {result : β}

theorem pure (value : α) : Delimits (Pure.pure value) [] value := by
  refine ⟨.pure value, ?_⟩
  intro front back whole rest
  exact absurd (List.append_eq_nil_iff.mp whole).2 rest

/-- A stream that breaks off inside two formats breaks off inside the first of them, or holds it whole
and breaks off inside the second. -/
theorem bind (first : reader.Delimits bytes value) (second : (next value).Delimits more result) :
    Delimits (reader >>= next) (bytes ++ more) result := by
  refine ⟨first.reads.bind second.reads, ?_⟩
  intro front back whole rest
  change (reader front).bind (fun taken => next taken.1 taken.2) = none
  have beyond (inside : List UInt8) (ends : front = bytes ++ inside) (left : inside ++ back = more) :
      (reader front).bind (fun taken => next taken.1 taken.2) = none := by
    rw [ends, first.reads inside]
    exact second.cut inside back left rest
  rcases List.append_eq_append_iff.mp whole with ⟨missing, ends, left⟩ | ⟨inside, ends, left⟩
  · by_cases none : missing = []
    · subst none
      exact beyond [] (by simpa using ends.symm) (by simpa using left)
    · rw [first.cut front missing ends.symm none]
      rfl
  · exact beyond inside ends left.symm

theorem map (first : reader.Delimits bytes value) (second : next value = Pure.pure result) :
    Delimits (reader >>= next) bytes result := by
  have last : (next value).Delimits [] result := second ▸ Delimits.pure result
  simpa using first.bind last

/-- Reading a value and making another of it. -/
theorem fmap (f : α → β) (first : reader.Delimits bytes value) :
    Delimits (f <$> reader) bytes (f value) := by
  have made : Delimits (reader >>= fun value => Pure.pure (f value)) bytes (f value) := first.map rfl
  exact made

theorem raw (bytes : List UInt8) : Delimits (Reader.raw bytes.length) bytes bytes := by
  refine ⟨.raw bytes, ?_⟩
  rintro front back rfl rest
  simpa [Reader.raw, List.take_of_length_le] using rest

end Reader.Delimits

namespace Head

variable {major info width argument : Nat} {head : Head} {rest : List UInt8}

theorem readNumber?_bigEndian (width : Nat) (fits : argument < 256 ^ width) :
    readNumber? width (bigEndian width argument ++ rest) = some (argument, rest) := by
  have length := length_bigEndian width argument
  rw [readNumber?, List.take_left' length, List.drop_left' length, if_pos length,
    ofBigEndian_bigEndian, Nat.mod_eq_of_lt fits]

private theorem readNumber?_short {front : List UInt8} (short : front.length < width) :
    readNumber? width front = none := by
  have differs : (front.take width).length ≠ width := by
    rw [List.length_take]
    omega
  rw [readNumber?, if_neg differs]

/-- The initial byte holds the major type above the five bits of additional information. -/
private theorem read?_cons (small : major < 8) (bits : info < 32) :
    read? (UInt8.ofNat (32 * major + info) :: rest) =
      (readArgument? info rest).bind fun (form, rest) =>
        (ofArgument? major form).map fun head => (head, rest) := by
  have value : (UInt8.ofNat (32 * major + info)).toNat = 32 * major + info := by
    rw [UInt8.toNat_ofNat']
    omega
  have low : (32 * major + info) % 32 = info := by omega
  have high : (32 * major + info) / 32 = major := by omega
  rw [read?, value, low, high]
  cases readArgument? info rest <;> rfl

/-- A head whose argument is in its initial byte. -/
theorem delimits_inline (small : major < 8) (tiny : argument < 24)
    (made : ofArgument? major (.inline argument) = some head) :
    Reader.head.Delimits [UInt8.ofNat (32 * major + argument)] head := by
  constructor
  · intro rest
    change read? (_ :: rest) = _
    rw [read?_cons small (by omega), readArgument?, if_pos tiny]
    simp [made]
  · intro front back whole rest
    obtain rfl : front = [] := by
      have lengths := congrArg List.length whole
      have left := List.length_pos_iff.mpr rest
      rw [List.length_append, List.length_singleton] at lengths
      exact List.eq_nil_of_length_eq_zero (by omega)
    rfl

/-- A head whose argument is in the bytes after its initial byte. -/
theorem delimits_follow (major info : Nat) (small : major < 8) (bits : info < 32) (fits : argument < 256 ^ width)
    (wide : ∀ input, readArgument? info input =
      (readNumber? width input).map fun (value, rest) => (Argument.follow width value, rest))
    (made : ofArgument? major (.follow width argument) = some head) :
    Reader.head.Delimits (UInt8.ofNat (32 * major + info) :: bigEndian width argument) head := by
  constructor
  · intro rest
    change read? (_ :: (bigEndian width argument ++ rest)) = _
    rw [read?_cons small bits, wide, readNumber?_bigEndian width fits]
    simp [made]
  · intro front back whole rest
    cases front with
    | nil => rfl
    | cons initial front =>
      obtain ⟨rfl, digits⟩ := List.cons.inj whole
      have short : front.length < width := by
        have lengths : (front ++ back).length = width := by
          rw [← length_bigEndian width argument]
          exact congrArg List.length digits
        have left := List.length_pos_iff.mpr rest
        rw [List.length_append] at lengths
        omega
      change read? (_ :: front) = _
      rw [read?_cons small bits, wide, readNumber?_short short]
      rfl

/-- The shortest form of an argument, under a major type that takes any. -/
private theorem delimits_write (small : major < 8) (fits : argument < UInt64.size)
    (made : ∀ form : Argument, form.value? = some argument → ofArgument? major form = some head) :
    Reader.head.Delimits (write major argument) head := by
  unfold write
  simp only [UInt8.size, UInt16.size, UInt32.size, UInt64.size] at fits ⊢
  split
  · rename_i tiny
    exact delimits_inline small tiny (made (.inline argument) rfl)
  · split
    · exact delimits_follow _ 24 small (by decide) (by omega) (fun _ => rfl)
        (made (.follow 1 argument) rfl)
    · split
      · exact delimits_follow _ 25 small (by decide) (by omega) (fun _ => rfl)
          (made (.follow 2 argument) rfl)
      · split
        · exact delimits_follow _ 26 small (by decide) (by omega) (fun _ => rfl)
            (made (.follow 4 argument) rfl)
        · exact delimits_follow _ 27 small (by decide) (by omega) (fun _ => rfl)
            (made (.follow 8 argument) rfl)

/-- The number that a head writes in its shortest form. -/
def argument? : Head → Option Nat
  | uint value | nint value => some value
  | bytes length | text length | array length | map length => length
  | tag _ | simple _ | float _ | stop => none

/-- Heads of numbers and of definite lengths read back. -/
theorem delimits_encode (counts : head.argument? = some argument) (fits : argument < UInt64.size) :
    Reader.head.Delimits head.encode head := by
  cases head with
  | uint value | nint value =>
    obtain rfl := Option.some.inj counts
    exact delimits_write (by decide) fits fun form value => by simp [ofArgument?, value]
  | bytes length | text length | array length | map length =>
    obtain rfl : length = some argument := counts
    exact delimits_write (by decide) fits fun form value => by simp [ofArgument?, value]
  | tag _ | simple _ | float _ | stop => cases counts

theorem reads_uint (fits : argument < UInt64.size) :
    Reader.head.Reads (uint argument).encode (uint argument) := (delimits_encode rfl fits).reads

theorem reads_nint (fits : argument < UInt64.size) :
    Reader.head.Reads (nint argument).encode (nint argument) := (delimits_encode rfl fits).reads

theorem reads_bytes (fits : argument < UInt64.size) :
    Reader.head.Reads (bytes (some argument)).encode (bytes (some argument)) :=
  (delimits_encode rfl fits).reads

theorem reads_map (fits : argument < UInt64.size) :
    Reader.head.Reads (map (some argument)).encode (map (some argument)) :=
  (delimits_encode rfl fits).reads

end Head

end HashLog.Cbor
