import SignedRefs.Proofs.Cbor.Form
import SignedRefs.Proofs.Cbor.Head

/-!
# Reading Canonical Forms

A value that was written is read back, with the entries of its maps in the order in which they were
written (`sort`). The reader needs the value to fit: as many levels as it allows, and lengths of 64
bits.

## Main results

* `readItem_append`: the form of a value is read back, whatever follows.
* `encode_sort`: sorting a value does not change its form.
* `decode_of_encode`: the strict reader accepts what was written.
* `encode_of_decode`: what it accepts is the form of what it reads.
-/

namespace SignedRefs.Cbor

/-! ### Sorting -/

mutual

/-- A value with the entries of every map in the order of the forms of their keys. -/
def sort : Value → Value
  | .array items => .array (sortItems items)
  | .map entries => .map (SortedMap.ofList (sortEntries entries)).values
  | .unsigned n => .unsigned n
  | .negative n => .negative n
  | .bytes value => .bytes value
  | .text value => .text value
  | .bool value => .bool value
  | .null => .null
  | .float => .float
  | .tag number content => .tag number content

/-- Values, sorted. -/
def sortItems : List Value → List Value
  | [] => []
  | item :: rest => sort item :: sortItems rest

/-- Entries, sorted inside, under the forms of their keys. -/
def sortEntries : List (Value × Value) → List (Bytes × (Value × Value))
  | [] => []
  | (key, value) :: rest => (form key, (sort key, sort value)) :: sortEntries rest

end

/-- Sorting an array sorts its items where they are. -/
theorem sort_array (items : List Value) : sort (.array items) = .array (items.map sort) := by
  have hitems : sortItems items = items.map sort := by
    induction items with
    | nil => rw [sortItems, List.map_nil]
    | cons item rest ih => rw [sortItems, ih, List.map_cons]
  rw [sort, hitems]

/-- The entries of a sorted map stand in order. -/
theorem sort_map {entries : List (Value × Value)} (h : (entries.map fun e => form e.1).Nodup) :
    sort (.map entries) = .map ((inOrder entries).map fun e => (sort e.1, sort e.2)) := by
  have hentries : sortEntries entries =
      (entries.map fun e => (form e.1, e)).map fun x => (x.1, (sort x.2.1, sort x.2.2)) := by
    clear h
    induction entries with
    | nil => rw [sortEntries, List.map_nil, List.map_nil]
    | cons e rest ih =>
        obtain ⟨key, value⟩ := e
        rw [sortEntries, ih, List.map_cons, List.map_cons]
  have hkeys : ((entries.map fun e => (form e.1, e)).map Prod.fst).Nodup := by rwa [List.map_map]
  rw [sort, hentries, SortedMap.ofList_map_values hkeys fun _ e => (sort e.1, sort e.2),
    SortedMap.mapValues, SortedMap.values, inOrder, SortedMap.values, List.map_map, List.map_map]
  rfl

/-! ### Fitting -/

/-- A value has at most `depth` levels of arrays and maps around its leaves, and its lengths have
64 bits. -/
def Fits : (depth : Nat) → Value → Prop
  | _, .bytes value => value.length < UInt64.size
  | _, .text value => (Bytes.ofText value).length < UInt64.size
  | 0, .array _ => False
  | 0, .map _ => False
  | depth + 1, .array items => items.length < UInt64.size ∧ ∀ item ∈ items, Fits depth item
  | depth + 1, .map entries =>
    entries.length < UInt64.size ∧ ∀ e ∈ entries, Fits depth e.1 ∧ Fits depth e.2
  | _, _ => True

/-! ### Leaves -/

/-- A head with a definite length is not open. -/
theorem Head.isOpen_of_lt {major : Major} {info value : Nat} (h : info < 28) :
    (Head.mk major info value).isOpen = false := by
  simp only [Head.isOpen, beq_eq_false_iff_ne]
  omega

/-- A string behind its head. -/
theorem readString_append {head : Head} {content : Bytes} (hopen : head.isOpen = false)
    (hvalue : head.value = content.length) (hchunk : checkChunk head.major content = some content)
    (rest : Bytes) : readString head (content ++ rest) = some (content, rest) := by
  rw [readString, hopen, hvalue, splitAt?_append]
  simp only [Bool.false_eq_true, if_false, hchunk, Option.map_some]

/-- Bytes are taken as they are. -/
theorem checkChunk_bytes (content : Bytes) : checkChunk .bytes content = some content := rfl

/-- The bytes of a text are one. -/
theorem checkChunk_text (text : String) :
    checkChunk .text (Bytes.ofText text) = some (Bytes.ofText text) := by
  simp [checkChunk]

section

variable (inner : Option Reader) (rest : Bytes)

/-- A number is read back. -/
theorem readItemWith_unsigned (n : UInt64) :
    readItemWith inner (writeHead .unsigned n.toNat ++ rest) = some (.unsigned n, rest) := by
  obtain ⟨info, hinfo, hread⟩ := readHead_writeHead .unsigned n.toNat_lt_size rest
  simp only [readItemWith, hread, Head.isOpen_of_lt hinfo, Bool.false_eq_true, if_false,
    UInt64.ofNat_toNat]

/-- A negative number is read back. -/
theorem readItemWith_negative (n : UInt64) :
    readItemWith inner (writeHead .negative n.toNat ++ rest) = some (.negative n, rest) := by
  obtain ⟨info, hinfo, hread⟩ := readHead_writeHead .negative n.toNat_lt_size rest
  simp only [readItemWith, hread, Head.isOpen_of_lt hinfo, Bool.false_eq_true, if_false,
    UInt64.ofNat_toNat]

/-- A byte string is read back. -/
theorem readItemWith_bytes {content : Bytes} (h : content.length < UInt64.size) :
    readItemWith inner (writeHead .bytes content.length ++ content ++ rest) =
      some (.bytes content, rest) := by
  obtain ⟨info, hinfo, hread⟩ := readHead_writeHead .bytes h (content ++ rest)
  rw [List.append_assoc]
  have hstring : readString ⟨.bytes, info, content.length⟩ (content ++ rest) =
      some (content, rest) :=
    readString_append (Head.isOpen_of_lt hinfo) rfl (checkChunk_bytes content) rest
  simp only [readItemWith, hread, hstring, Option.map_some]

/-- A text is read back. -/
theorem readItemWith_text {text : String} (h : (Bytes.ofText text).length < UInt64.size) :
    readItemWith inner (writeHead .text (Bytes.ofText text).length ++ Bytes.ofText text ++ rest) =
      some (.text text, rest) := by
  obtain ⟨info, hinfo, hread⟩ := readHead_writeHead .text h (Bytes.ofText text ++ rest)
  rw [List.append_assoc]
  have hstring : readString ⟨.text, info, (Bytes.ofText text).length⟩ (Bytes.ofText text ++ rest) =
      some (Bytes.ofText text, rest) :=
    readString_append (Head.isOpen_of_lt hinfo) rfl (checkChunk_text text) rest
  simp only [readItemWith, hread, hstring, Bytes.text?_ofText, Option.map_some]

/-- A truth value is read back. -/
theorem readItemWith_bool (b : Bool) :
    readItemWith inner ([initialByte .simple (if b then 21 else 20)] ++ rest) =
      some (.bool b, rest) := by
  cases b
  · simp only [readItemWith, List.singleton_append, Bool.false_eq_true, if_false,
      readHead_initialByte .simple (show 20 < 24 by decide)]
    rfl
  · simp only [readItemWith, List.singleton_append, if_true,
      readHead_initialByte .simple (show 21 < 24 by decide)]
    rfl

/-- Null is read back. -/
theorem readItemWith_null :
    readItemWith inner ([initialByte .simple 22] ++ rest) = some (.null, rest) := by
  simp only [readItemWith, List.singleton_append,
    readHead_initialByte .simple (show 22 < 24 by decide)]
  rfl

end

/-! ### Items and entries -/

section

variable {item : Reader}

/-- Items are read back one after another if each of them is, and sorted as it is. -/
theorem readItems_append {items : List Value}
    (h : ∀ v ∈ items, ∀ rest, item (form v ++ rest) = some (sort v, rest)) (done : List Value)
    (rest : Bytes) :
    readItems item items.length done ((items.map form).flatten ++ rest) =
      some (done.reverse ++ items.map sort, rest) := by
  induction items generalizing done with
  | nil => simp [readItems]
  | cons v items ih =>
      have hv := h v List.mem_cons_self
      have hrest := fun w hw => h w (List.mem_cons_of_mem v hw)
      rw [List.length_cons, readItems, List.map_cons, List.flatten_cons, List.append_assoc, hv]
      simp only [ih hrest, List.reverse_cons, List.append_assoc, List.singleton_append,
        List.map_cons]

/-- Entries are read back one after another if their keys and values are, and sorted as they are. -/
theorem readEntries_append {entries : List (Value × Value)}
    (h : ∀ e ∈ entries, (∀ rest, item (form e.1 ++ rest) = some (sort e.1, rest)) ∧
      ∀ rest, item (form e.2 ++ rest) = some (sort e.2, rest)) (done : List (Value × Value))
    (rest : Bytes) :
    readEntries item entries.length done
        ((entries.map fun e => form e.1 ++ form e.2).flatten ++ rest) =
      some (done.reverse ++ entries.map fun e => (sort e.1, sort e.2), rest) := by
  induction entries generalizing done with
  | nil => simp [readEntries]
  | cons e entries ih =>
      obtain ⟨hkey, hvalue⟩ := h e List.mem_cons_self
      have hrest := fun x hx => h x (List.mem_cons_of_mem e hx)
      rw [List.length_cons, readEntries, List.map_cons, List.flatten_cons, List.append_assoc,
        List.append_assoc, hkey]
      simp only [hvalue, ih hrest, List.reverse_cons, List.append_assoc, List.singleton_append,
        List.map_cons]

end

/-! ### The round trip -/

/-- An array that can be written has items that can, and is their forms behind a head. -/
theorem form_array {items : List Value} (h : HasForm (.array items)) :
    (∀ v ∈ items, HasForm v) ∧
      form (.array items) = writeHead .array items.length ++ (items.map form).flatten :=
  encode_array_eq_ok_iff.mp h.encode_eq

/-- A map that can be written has entries that can, under keys with different forms, and is their
forms in the order of the keys behind a head. -/
theorem form_map {entries : List (Value × Value)} (h : HasForm (.map entries)) :
    (∀ e ∈ entries, HasForm e.1 ∧ HasForm e.2) ∧ (entries.map fun e => form e.1).Nodup ∧
      form (.map entries) = writeHead .map entries.length ++
        ((inOrder entries).map fun e => form e.1 ++ form e.2).flatten :=
  encode_map_eq_ok_iff.mp h.encode_eq

/-- A leaf is read back at any depth. -/
private theorem readItemWith_leaf (inner : Option Reader) {value : Value} (hfits : Fits 0 value)
    (hform : HasForm value) (rest : Bytes) :
    readItemWith inner (form value ++ rest) = some (sort value, rest) := by
  obtain ⟨bytes, hbytes⟩ := hform
  rw [form_eq hbytes]
  cases value with
  | unsigned n =>
      cases hbytes
      exact readItemWith_unsigned inner rest n
  | negative n =>
      cases hbytes
      exact readItemWith_negative inner rest n
  | bytes content =>
      cases hbytes
      exact readItemWith_bytes inner rest hfits
  | text text =>
      cases hbytes
      exact readItemWith_text inner rest hfits
  | array items => exact hfits.elim
  | map entries => exact hfits.elim
  | bool b =>
      cases hbytes
      exact readItemWith_bool inner rest b
  | null =>
      cases hbytes
      exact readItemWith_null inner rest
  | float => cases hbytes
  | tag number content => cases hbytes

/-- A value that fits is read back from its form, whatever follows. -/
theorem readItem_append {depth : Nat} {value : Value} (hfits : Fits depth value)
    (hform : HasForm value) (rest : Bytes) :
    readItem depth (form value ++ rest) = some (sort value, rest) := by
  induction depth generalizing value rest with
  | zero => exact readItemWith_leaf none hfits hform rest
  | succ depth ih =>
      cases value with
      | array items =>
          obtain ⟨hlength, hitems⟩ := hfits
          obtain ⟨hforms, heq⟩ := form_array hform
          obtain ⟨info, hinfo, hread⟩ :=
            readHead_writeHead .array hlength ((items.map form).flatten ++ rest)
          have hlist := readItems_append (fun v hv => ih (hitems v hv) (hforms v hv)) [] rest
          rw [heq, List.append_assoc, readItem, sort_array]
          simp only [readItemWith, hread, Head.isOpen_of_lt hinfo, Bool.false_eq_true, if_false,
            hlist, List.reverse_nil, List.nil_append, Option.map_some]
      | map entries =>
          obtain ⟨hlength, hentries⟩ := hfits
          obtain ⟨hforms, hnodup, heq⟩ := form_map hform
          have hperm := inOrder_perm hnodup
          obtain ⟨info, hinfo, hread⟩ := readHead_writeHead .map hlength
            (((inOrder entries).map fun e => form e.1 ++ form e.2).flatten ++ rest)
          have hparts : ∀ e ∈ inOrder entries,
              (∀ rest, readItem depth (form e.1 ++ rest) = some (sort e.1, rest)) ∧
                ∀ rest, readItem depth (form e.2 ++ rest) = some (sort e.2, rest) := by
            intro e he
            have hmem := hperm.mem_iff.mp he
            exact ⟨ih (hentries e hmem).1 (hforms e hmem).1,
              ih (hentries e hmem).2 (hforms e hmem).2⟩
          have hlist := readEntries_append hparts [] rest
          rw [hperm.length_eq] at hlist
          rw [heq, List.append_assoc, readItem, sort_map hnodup]
          simp only [readItemWith, hread, Head.isOpen_of_lt hinfo, Bool.false_eq_true, if_false,
            hlist, List.reverse_nil, List.nil_append, Option.map_some]
      | unsigned n =>
          have hleaf : Fits 0 (.unsigned n) := trivial
          exact readItemWith_leaf _ hleaf hform rest
      | negative n =>
          have hleaf : Fits 0 (.negative n) := trivial
          exact readItemWith_leaf _ hleaf hform rest
      | bytes content =>
          have hleaf : Fits 0 (.bytes content) := hfits
          exact readItemWith_leaf _ hleaf hform rest
      | text text =>
          have hleaf : Fits 0 (.text text) := hfits
          exact readItemWith_leaf _ hleaf hform rest
      | bool b =>
          have hleaf : Fits 0 (.bool b) := trivial
          exact readItemWith_leaf _ hleaf hform rest
      | null =>
          have hleaf : Fits 0 .null := trivial
          exact readItemWith_leaf _ hleaf hform rest
      | float => cases hform.choose_spec
      | tag number content => cases hform.choose_spec

/-- Values with one form differ in the order of entries only. -/
theorem sort_eq_of_form_eq {depth : Nat} {v w : Value} (hv : Fits depth v) (hw : Fits depth w)
    (hformV : HasForm v) (hformW : HasForm w) (h : form v = form w) : sort v = sort w := by
  have hread := readItem_append hv hformV []
  rw [h, readItem_append hw hformW] at hread
  exact (congrArg Prod.fst (Option.some.inj hread)).symm

/-- Sorting the entries of a value does not change its form. -/
theorem encode_sort {depth : Nat} {value : Value} (hfits : Fits depth value)
    (hform : HasForm value) : encode (sort value) = encode value := by
  induction depth generalizing value with
  | zero =>
      cases value with
      | array items => exact hfits.elim
      | map entries => exact hfits.elim
      | _ => rfl
  | succ depth ih =>
      cases value with
      | array items =>
          obtain ⟨-, hitems⟩ := hfits
          obtain ⟨hforms, heq⟩ := form_array hform
          have hsame : ∀ v ∈ items, encode (sort v) = .ok (form v) := fun v hv =>
            (ih (hitems v hv) (hforms v hv)).trans (hforms v hv).encode_eq
          have hforms' : (items.map sort).map form = items.map form := by
            rw [List.map_map]
            exact List.map_congr_left fun v hv => form_eq (hsame v hv)
          rw [hform.encode_eq, heq, sort_array, encode_array_eq_ok_iff, hforms', List.length_map]
          refine ⟨fun v hv => ?_, rfl⟩
          obtain ⟨w, hw, rfl⟩ := List.mem_map.mp hv
          exact ⟨_, hsame w hw⟩
      | map entries =>
          obtain ⟨-, hentries⟩ := hfits
          obtain ⟨hforms, hnodup, -⟩ := form_map hform
          have hperm := inOrder_perm hnodup
          have hsame : encode (.map ((inOrder entries).map fun e => (sort e.1, sort e.2))) =
              encode (.map (inOrder entries)) := by
            refine encode_map_congr ?_
            rw [List.forall₂_map_left_iff, List.forall₂_same]
            intro e he
            have hmem := hperm.mem_iff.mp he
            exact ⟨ih (hentries e hmem).1 (hforms e hmem).1,
              ih (hentries e hmem).2 (hforms e hmem).2⟩
          rw [sort_map hnodup, hsame, hform.encode_eq]
          exact encode_map_of_perm hform.encode_eq hperm.symm
      | _ => rfl

/-- The strict reader accepts what was written. -/
theorem decode_of_encode {value : Value} {bytes : Bytes} (hfits : Fits maxDepth value)
    (h : encode value = .ok bytes) : decode bytes = .ok (sort value) := by
  have hform : HasForm value := ⟨bytes, h⟩
  have hread := readItem_append hfits hform []
  rw [form_eq h, List.append_nil] at hread
  rw [decode, hread]
  simp only [encode_sort hfits hform, h, beq_self_eq_true, if_true]

/-- What the strict reader accepts is the canonical form of what it reads. -/
theorem encode_of_decode {value : Value} {bytes : Bytes} (h : decode bytes = .ok value) :
    encode value = .ok bytes := by
  rw [decode] at h
  split at h
  · cases h
  · split at h
    · cases h
    · next hencode =>
        split at h
        · next heq =>
            cases h
            rw [hencode, beq_iff_eq.mp heq]
        · cases h

end SignedRefs.Cbor
