import HashLog.Proofs.Json.Objects
/-!
What structures read from objects. A member that is found is the one field of its name (`lookup_of_select?`).
An object that is accepted stays so when fields are left out, and a field that may be missing then reads the
same, if it is still there or held what it reads without it (`fieldOr?_of_select?`). Plain values read as what
they were written for.
-/
namespace HashLog.Json

variable {names : List String} {members left : List (String × Json)} {label : String} {body : List Char}
  {value : Json} {fields kept : List (List Char × Json)}

/-! ## Members -/

/-- What is selected of the first field: its name and value where the name is asked for. -/
theorem select?_cons (selected : select? names ((body, value) :: fields) = some members) :
    ∃ label others, memberName? body = some label ∧ select? names fields = some others ∧
      ((label ∈ names ∧ others.lookup label = none ∧ members = (label, value) :: others) ∨
        (label ∉ names ∧ value.skips = true ∧ members = others)) := by
  simp only [select?, Option.bind_eq_bind, Option.bind_eq_some_iff] at selected
  obtain ⟨label, named, others, rest, selected⟩ := selected
  refine ⟨label, others, named, rest, ?_⟩
  split_ifs at selected with asked repeated skips
  · cases selected
    exact .inl ⟨by simpa using asked, by rwa [Option.not_isSome_iff_eq_none] at repeated, rfl⟩
  · cases selected
    exact .inr ⟨by simpa using asked, skips, rfl⟩

/-- A member that is found is a field of this name, and the only one. -/
theorem lookup_of_select? (selected : select? names fields = some members) :
    members.lookup label = some value ↔
      label ∈ names ∧ ∃ body, (body, value) ∈ fields ∧ memberName? body = some label := by
  induction fields generalizing members with
  | nil =>
    cases selected
    simp
  | cons field fields ih =>
    obtain ⟨first, others, named, rest, choice⟩ := select?_cons selected
    have split : (∃ body, (body, value) ∈ field :: fields ∧ memberName? body = some label) ↔
        (label = first ∧ value = field.2) ∨ ∃ body, (body, value) ∈ fields ∧ memberName? body = some label := by
      constructor
      · rintro ⟨body, listed, names⟩
        rcases List.mem_cons.mp listed with rfl | listed
        · exact .inl ⟨by simpa [named] using names.symm, rfl⟩
        · exact .inr ⟨body, listed, names⟩
      · rintro (⟨rfl, rfl⟩ | ⟨body, listed, names⟩)
        · exact ⟨field.1, List.mem_cons_self, named⟩
        · exact ⟨body, List.mem_cons_of_mem _ listed, names⟩
    rw [split]
    obtain ⟨asked, fresh, rfl⟩ | ⟨unasked, -, rfl⟩ := choice
    · by_cases same : label = first
      · subst same
        have absent : ¬ ∃ body, (body, value) ∈ fields ∧ memberName? body = some label := fun found => by
          have again := (ih rest).mpr ⟨asked, found⟩
          rw [fresh] at again
          cases again
        simp only [List.lookup_cons_self, absent, or_false, asked, true_and, Option.some.injEq]
        exact eq_comm
      · have other : (label == first) = false := by simpa using same
        rw [List.lookup_cons, other]
        simpa [same] using ih rest
    · rw [ih rest]
      have other (asked : label ∈ names) : label ≠ first := fun same => unasked (same ▸ asked)
      constructor
      · exact fun ⟨asked, found⟩ => ⟨asked, .inr found⟩
      · exact fun ⟨asked, found⟩ => ⟨asked, found.resolve_left fun same => other asked same.1⟩

theorem select?_of_sublist (selected : select? names fields = some members) (sub : kept.Sublist fields) :
    ∃ left, select? names kept = some left := by
  induction sub generalizing members with
  | slnil => exact ⟨_, selected⟩
  | cons field sub ih =>
    obtain ⟨_, others, -, rest, -⟩ := select?_cons selected
    exact ih rest
  | cons_cons field sub ih =>
    obtain ⟨label, others, named, rest, choice⟩ := select?_cons selected
    obtain ⟨left, found⟩ := ih rest
    obtain ⟨asked, fresh, -⟩ | ⟨unasked, skips, -⟩ := choice
    · have fresh : left.lookup label = none := by
        refine Option.eq_none_iff_forall_ne_some.mpr fun value again => ?_
        obtain ⟨-, body, listed, names⟩ := (lookup_of_select? found).mp again
        rw [(lookup_of_select? rest).mpr ⟨asked, body, sub.subset listed, names⟩] at fresh
        cases fresh
      exact ⟨(label, field.2) :: left, by simp [select?, named, found, asked, fresh]⟩
    · exact ⟨left, by simp [select?, named, found, unasked, skips]⟩

/-- A field reads the same where it was left out only if its value is what it reads without it. -/
theorem fieldOr?_of_select? {α : Type} {read? : Json → Option α} {default : α}
    (selected : select? names fields = some members) (found : select? names kept = some left)
    (sub : kept.Sublist fields)
    (gone : ∀ body value, (body, value) ∈ fields → (body, value) ∉ kept → memberName? body = some label →
      read? value = some default) :
    fieldOr? left label read? default = fieldOr? members label read? default := by
  unfold fieldOr?
  cases here : left.lookup label with
  | some value =>
    obtain ⟨asked, body, listed, names⟩ := (lookup_of_select? found).mp here
    rw [(lookup_of_select? selected).mpr ⟨asked, body, sub.subset listed, names⟩]
  | none =>
    cases there : members.lookup label with
    | none => rfl
    | some value =>
      obtain ⟨asked, body, listed, names⟩ := (lookup_of_select? selected).mp there
      refine (gone body value listed (fun listed => ?_) names).symm
      rw [(lookup_of_select? found).mpr ⟨asked, body, listed, names⟩] at here
      cases here

/-- Among members of different names each is found by its own. -/
theorem lookup_of_mem (distinct : (members.map (·.1)).Nodup) (listed : (label, value) ∈ members) :
    members.lookup label = some value := by
  induction members with
  | nil => cases listed
  | cons member members ih =>
    obtain ⟨fresh, distinct⟩ := List.nodup_cons.mp distinct
    rcases List.mem_cons.mp listed with rfl | later
    · exact List.lookup_cons_self
    · have apart : label ≠ member.1 := fun same => fresh (List.mem_map.mpr ⟨_, later, same⟩)
      rw [List.lookup_cons, beq_eq_false_iff_ne.mpr apart]
      exact ih distinct later

theorem fieldOr?_of_mem {α : Type} {read? : Json → Option α} {default : α}
    (distinct : (members.map (·.1)).Nodup) (listed : (label, value) ∈ members) :
    fieldOr? members label read? default = read? value := by
  rw [fieldOr?, lookup_of_mem distinct listed]

/-- A structure is read from the object that it is written as. -/
theorem select?_ofFields {fields : List (String × Json)} (distinct : (fields.map (·.1)).Nodup)
    (asked : ∀ field ∈ fields, field.1 ∈ names) (plain : ∀ field ∈ fields, IsPlain field.1.toList) :
    select? names (fields.map fun (name, value) => (name.toList, value)) = some fields := by
  induction fields with
  | nil => rfl
  | cons field fields ih =>
    obtain ⟨fresh, distinct⟩ := List.nodup_cons.mp distinct
    obtain ⟨asked, others⟩ := List.forall_mem_cons.mp asked
    obtain ⟨plain, rest⟩ := List.forall_mem_cons.mp plain
    have absent : fields.lookup field.1 = none := by
      refine List.lookup_eq_none_iff.mpr fun other listed => ?_
      have apart : field.1 ≠ other.1 := fun same => fresh (List.mem_map.mpr ⟨other, listed, same.symm⟩)
      simpa using apart
    simp [select?, plain.memberName?, ih distinct others rest, asked, absent]

/-! ## Plain values -/

theorem uint64?_ofNat (n : UInt64) : uint64? (ofNat n.toNat) = some n := by
  have fits : n.toNat < UInt64.size := n.toNat_lt
  simp [uint64?, ofNat, natBelow?, ofLiteral?_natChars fits, fits]

theorem memberName?_escape (text : String) : memberName? (text.toList.flatMap escapeChar) = some text := by
  simp [memberName?, bodyText?_escape]

theorem text?_ofString (text : String) : text? (ofString text) = some text := memberName?_escape text

theorem orNull?_text?_ofString (text : String) : orNull? text? (ofString text) = some (some text) := by
  change (text? (ofString text)).map some = _
  rw [text?_ofString]
  rfl

theorem choice?_ofString (name : String) : choice? (ofString name) = some (name, none) := by
  simp [ofString, ofText, choice?, memberName?_escape]

theorem choice?_ofFields {name : String} (plain : IsPlain name.toList) :
    choice? (ofFields [(name, value)]) = some (name, some value) := by
  change (memberName? name.toList).map (·, some value) = _
  rw [plain.memberName?]
  rfl

end HashLog.Json
