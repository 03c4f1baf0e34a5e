import SignedRefs.Proofs.Sync.Limits

/-!
# Where the Text of an Error Is Cut

The text of an error may take so many bytes, and the last of them may fall into the middle of a
character. `Response.failure` takes whole characters from the front as long as they fit. The same
cut is found from the other end: a search starts at the limit and goes down, one index at a time,
until it meets an index between two characters (`Response.boundaryUpTo?`). It never gets below 0,
for there the text begins, and it meets one soon, since no character takes more than four bytes.

## Main results

* `Response.prefix_fitting`: what fits is the longest beginning that fits.
* `Response.lt_utf8ByteSize_fitting`: what does not fit is missed by less than one character.
* `Response.boundaryUpTo?_eq_some_iff`, `Response.boundaryUpTo?_eq_fitting`: where the search ends.
* `Response.failure_cut`: the text of a failure.
-/

namespace SignedRefs

namespace Response

variable {room : Nat} {p l : List Char}

/-! ### The longest beginning that fits -/

/-- A beginning takes no more bytes than the whole. -/
theorem utf8ByteSize_le_of_isPrefix (h : p <+: l) :
    (String.ofList p).utf8ByteSize ≤ (String.ofList l).utf8ByteSize := by
  obtain ⟨rest, rfl⟩ := h
  rw [String.ofList_append, String.utf8ByteSize_append]
  exact Nat.le_add_right _ _

/-- What fits is a beginning. -/
theorem fitting_isPrefix (room : Nat) (l : List Char) : fitting room l <+: l := by
  induction l generalizing room with
  | nil => exact List.prefix_refl _
  | cons c rest ih =>
      rw [fitting]
      split_ifs
      · exact List.nil_prefix
      · exact List.cons_prefix_cons.mpr ⟨rfl, ih _⟩

/-- Every beginning that takes no more bytes than there is room for is part of what fits. -/
theorem prefix_fitting (h : p <+: l) (hp : (String.ofList p).utf8ByteSize ≤ room) :
    p <+: fitting room l := by
  induction l generalizing p room with
  | nil => exact h
  | cons c rest ih =>
      cases p with
      | nil => exact List.nil_prefix
      | cons d p =>
          obtain ⟨rfl, hrest⟩ := List.cons_prefix_cons.mp h
          rw [utf8ByteSize_ofList_cons] at hp
          rw [fitting, if_neg (by omega)]
          exact List.cons_prefix_cons.mpr ⟨rfl, ih hrest (by omega)⟩

/-- If there is room for everything, everything fits. -/
theorem fitting_eq_self (h : (String.ofList l).utf8ByteSize ≤ room) : fitting room l = l :=
  (fitting_isPrefix room l).eq_of_length_le (prefix_fitting (List.prefix_refl l) h).length_le

/-- Where not everything fits, the room that is left is not enough for one more character, and no
character takes more than four bytes. -/
theorem lt_utf8ByteSize_fitting (h : room < (String.ofList l).utf8ByteSize) :
    room < (String.ofList (fitting room l)).utf8ByteSize + 4 := by
  induction l generalizing room with
  | nil => exact absurd h (Nat.not_lt_zero _)
  | cons c rest ih =>
      have hsize := c.utf8Size_le_four
      rw [utf8ByteSize_ofList_cons] at h
      rw [fitting]
      split_ifs with hroom
      · omega
      · have hleft : room - c.utf8Size < (String.ofList rest).utf8ByteSize := by omega
        have hrest := ih hleft
        rw [utf8ByteSize_ofList_cons]
        omega

/-! ### The search from the limit -/

/-- Searches from an index downwards for one between two characters of a text or at its ends; none
if the search would have to go on below 0. -/
def boundaryUpTo? (text : String) (n : Nat) : Option Nat :=
  if String.Pos.Raw.isValid text ⟨n⟩ then some n
  else match n with
    | 0 => none
    | n + 1 => boundaryUpTo? text n

/-- Such an index is the end of a beginning. -/
theorem isValid_iff_exists_prefix {text : String} {n : Nat} :
    (⟨n⟩ : String.Pos.Raw).IsValid text ↔
      ∃ p, p <+: text.toList ∧ (String.ofList p).utf8ByteSize = n := by
  rw [String.Pos.Raw.isValid_iff_exists_take_toList]
  constructor
  · rintro ⟨i, hi⟩
    exact ⟨text.toList.take i, List.take_prefix i _, hi.symm⟩
  · rintro ⟨p, hp, rfl⟩
    exact ⟨p.length, by rw [← List.prefix_iff_eq_take.mp hp]⟩

/-- The search ends at the last such index that is not above the one where it starts. -/
theorem boundaryUpTo?_eq_some_iff {text : String} {n e : Nat} :
    boundaryUpTo? text n = some e ↔ e ≤ n ∧ (⟨e⟩ : String.Pos.Raw).IsValid text ∧
      ∀ m, e < m → m ≤ n → ¬(⟨m⟩ : String.Pos.Raw).IsValid text := by
  induction n with
  | zero =>
      have hzero : String.Pos.Raw.isValid text ⟨0⟩ = true :=
        String.Pos.Raw.isValid_eq_true_iff.mpr String.Pos.Raw.isValid_zero
      rw [boundaryUpTo?, if_pos hzero, Option.some_inj]
      constructor
      · rintro rfl
        exact ⟨Nat.le_refl 0, String.Pos.Raw.isValid_zero, fun m hm hle => by omega⟩
      · exact fun h => (Nat.le_zero.mp h.1).symm
  | succ n ih =>
      rw [boundaryUpTo?]
      split_ifs with hvalid
      · rw [String.Pos.Raw.isValid_eq_true_iff] at hvalid
        rw [Option.some_inj]
        constructor
        · rintro rfl
          exact ⟨Nat.le_refl _, hvalid, fun m hm hle => by omega⟩
        · rintro ⟨hle, -, hnone⟩
          by_contra hne
          exact hnone (n + 1) (by omega) (Nat.le_refl _) hvalid
      · rw [String.Pos.Raw.isValid_eq_true_iff] at hvalid
        rw [ih]
        constructor
        · rintro ⟨hle, he, hnone⟩
          refine ⟨Nat.le_succ_of_le hle, he, fun m hm hmle => ?_⟩
          rcases Nat.le_succ_iff.mp hmle with hmle | rfl
          · exact hnone m hm hmle
          · exact hvalid
        · rintro ⟨hle, he, hnone⟩
          have hne : e ≠ n + 1 := by
            rintro rfl
            exact hvalid he
          exact ⟨by omega, he, fun m hm hmle => hnone m hm (Nat.le_succ_of_le hmle)⟩

/-- The search from a limit ends where what fits ends. -/
theorem boundaryUpTo?_eq_fitting (text : String) (room : Nat) :
    boundaryUpTo? text room =
      some (String.ofList (fitting room text.toList)).utf8ByteSize := by
  refine boundaryUpTo?_eq_some_iff.mpr ⟨utf8ByteSize_fitting_le room _,
    isValid_iff_exists_prefix.mpr ⟨_, fitting_isPrefix room _, rfl⟩, fun m hm hle hvalid => ?_⟩
  obtain ⟨p, hp, rfl⟩ := isValid_iff_exists_prefix.mp hvalid
  exact Nat.not_le.mpr hm (utf8ByteSize_le_of_isPrefix (prefix_fitting hp hle))

/-- The limit falls into the second character, and the search meets the end of the first. -/
example : boundaryUpTo? "é€" 4 = some 2 := by decide +kernel

/-- A beginning of a text is written with the first bytes of it. -/
theorem ofText_eq_take {cut text : String} (h : cut.toList <+: text.toList) :
    Bytes.ofText cut = (Bytes.ofText text).take cut.utf8ByteSize := by
  obtain ⟨rest, hrest⟩ := h
  have htext : text = cut ++ String.ofList rest := by
    rw [← String.toList_inj, String.toList_append, String.toList_ofList, hrest]
  rw [htext, Bytes.ofText_append, ObjectId.utf8ByteSize_eq, List.take_left]

/-! ### The text of a failure -/

/-- Whatever the text of a failure is, the search for the place to cut it ends without going below
index 0, and the text is cut there: the bytes that are left are the first ones, at most 1024, and
they are those of a text. Nothing is cut off if everything fits, and otherwise at least 1021 bytes
are left. So the failure is within the limits. -/
theorem failure_cut (code : ErrorCode) (text : String) :
    ∃ cut, failure code text = .error code cut ∧
      boundaryUpTo? text 1024 = some cut.utf8ByteSize ∧
      (⟨cut.utf8ByteSize⟩ : String.Pos.Raw).IsValid text ∧
      Bytes.ofText cut = (Bytes.ofText text).take cut.utf8ByteSize ∧
      cut.toList <+: text.toList ∧
      cut.utf8ByteSize ≤ 1024 ∧
      (text.utf8ByteSize ≤ 1024 → cut = text) ∧
      (1024 < text.utf8ByteSize → 1021 ≤ cut.utf8ByteSize) ∧
      (failure code text).validate = .ok () := by
  have hprefix : (String.ofList (fitting 1024 text.toList)).toList <+: text.toList := by
    rw [String.toList_ofList]
    exact fitting_isPrefix 1024 text.toList
  refine ⟨String.ofList (fitting 1024 text.toList), rfl, boundaryUpTo?_eq_fitting text 1024,
    isValid_iff_exists_prefix.mpr ⟨_, fitting_isPrefix 1024 _, rfl⟩, ofText_eq_take hprefix,
    hprefix, utf8ByteSize_fitting_le 1024 _, fun hfits => ?_, fun hlong => ?_,
    validate_failure code text⟩
  · rw [fitting_eq_self (by rwa [String.ofList_toList]), String.ofList_toList]
  · have hsize : 1024 < (String.ofList text.toList).utf8ByteSize := by rwa [String.ofList_toList]
    have hleft := lt_utf8ByteSize_fitting hsize
    omega

end Response

end SignedRefs
