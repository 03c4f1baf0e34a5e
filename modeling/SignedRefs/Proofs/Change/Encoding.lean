import SignedRefs.Change
import SignedRefs.Proofs.Cbor.Flat
import SignedRefs.Proofs.Ref.Naming

/-!
# The Canonical Form of a Change

The three kinds of changes are three flat records with some fields in common. A change that follows
the rules has as its parent what its kind calls for, and so its kind says which keys it has
(`keysOf`). It is read back from its form field by field: the kind first, which says what else there
is to read.

## Main results

* `validate_eq_ok_iff`: the rules, kind by kind.
* `flat_entries`, `keys_entries`: what is written for a change.
* `ofValue_eq_ok_iff`: what makes a value a change.
* `SignedChange.decode_encode`, `SignedChange.wire_round_trip`: a signed change survives the wire.
-/

namespace SignedRefs

open Cbor

namespace Change

variable {c : Change}

/-! ### The rules -/

/-- A change follows the rules: only the change that opens a patch has no parent, and titles and
reasons are bounded. -/
inductive Lawful : Change → Prop
  /-- A change that opens a patch. -/
  | opening {author : PeerId} {timestamp : Int64} {target : BranchName} {title : String}
      {base head : ObjectId} (h : title.utf8ByteSize ≤ 256) :
      Lawful ⟨none, author, timestamp, .openPatch target title base head⟩
  /-- A change that proposes another head. -/
  | revision {parent : ObjectId} {author : PeerId} {timestamp : Int64} {base head : ObjectId} :
      Lawful ⟨some parent, author, timestamp, .revise base head⟩
  /-- A change that closes a patch. -/
  | closing {parent : ObjectId} {author : PeerId} {timestamp : Int64} {reason : String}
      (h : reason.utf8ByteSize ≤ 1024) :
      Lawful ⟨some parent, author, timestamp, .close reason⟩

/-- A change follows the rules if no fault is found. -/
theorem validate_eq_ok_iff_fault : c.validate = .ok () ↔ c.fault? = none := by
  rw [validate]
  cases c.fault? with
  | none => simp
  | some fault => simp

/-- The rules are what is checked. -/
theorem validate_eq_ok_iff : c.validate = .ok () ↔ c.Lawful := by
  rw [validate_eq_ok_iff_fault]
  constructor
  · intro h
    obtain ⟨_ | parent, author, timestamp, action⟩ := c
    · cases action with
      | openPatch target title base head =>
          refine .opening (Nat.le_of_not_lt fun hlong => ?_)
          simp [fault?, maxTitle, hlong] at h
      | revise base head => cases h
      | close reason => cases h
    · cases action with
      | openPatch target title base head => cases h
      | revise base head => exact .revision
      | close reason =>
          refine .closing (Nat.le_of_not_lt fun hlong => ?_)
          simp [fault?, maxReason, hlong] at h
  · intro h
    cases h with
    | opening h => simp [fault?, maxTitle, Nat.not_lt.mpr h]
    | revision => rfl
    | closing h => simp [fault?, maxReason, Nat.not_lt.mpr h]

/-! ### What is written -/

/-- The number of a kind. -/
def kindOf : Action → UInt64
  | .openPatch .. => 0
  | .revise .. => 1
  | .close .. => 2

/-- The keys of the changes of a kind. -/
def keysOf (kind : UInt64) : List UInt64 :=
  match kind with
  | 0 => [1, 2, 3, 4, 5, 6, 7]
  | 1 => [0, 1, 2, 3, 6, 7]
  | 2 => [0, 1, 2, 3, 8]
  | _ => []

/-- The entries of a change. -/
def entries (c : Change) : List (Value × Value) :=
  parentEntries c.parent ++
    [Value.entry 1 (.bytes c.author.bytes), Value.entry 2 (.ofInt64 c.timestamp)] ++
    actionEntries c.action

/-- A change is written as the map of its entries. -/
theorem toValue_eq : c.toValue = .map c.entries := rfl

/-- The kind of a change says which keys it has. -/
theorem keys_entries (h : c.Lawful) :
    c.entries.map Prod.fst = (keysOf (kindOf c.action)).map Value.unsigned := by
  cases h with
  | opening => rfl
  | revision => rfl
  | closing => rfl

/-- There is no entry under any other key. -/
theorem entry_notMem_entries (h : c.Lawful) {key : UInt64} (hkey : key ∉ keysOf (kindOf c.action))
    (value : Value) : Value.entry key value ∉ c.entries := by
  intro hmem
  have hfst := List.mem_map_of_mem (f := Prod.fst) hmem
  rw [keys_entries h] at hfst
  obtain ⟨key', hkey', heq⟩ := List.mem_map.mp hfst
  exact hkey (Value.unsigned.inj heq ▸ hkey')

/-- No key of a kind stands twice. -/
theorem nodup_keysOf (kind : UInt64) : (keysOf kind).Nodup := by
  unfold keysOf
  split <;> decide

/-- No kind has more than seven keys. -/
theorem length_keysOf_le (kind : UInt64) : (keysOf kind).length ≤ 7 := by
  unfold keysOf
  split <;> decide

/-- An object name is a leaf. -/
theorem isLeaf_objectId (id : ObjectId) : IsLeaf (.bytes id.bytes) :=
  isLeaf_bytes id.value (by decide)

/-- What belongs to the action of a lawful change has no parts. -/
theorem isLeaf_actionEntries (h : c.Lawful) : ∀ e ∈ actionEntries c.action, IsLeaf e.2 := by
  have hshort {text : String} {n : Nat} (h : text.utf8ByteSize ≤ n) (hn : n < UInt64.size) :
      IsLeaf (.text text) := isLeaf_text (Nat.lt_of_le_of_lt h hn)
  cases h with
  | @opening _ _ target title base head h =>
      simp only [actionEntries, List.forall_mem_cons, Value.entry]
      exact ⟨isLeaf_unsigned 0, hshort (RefName.utf8ByteSize_branch_le target) (by decide),
        hshort h (by decide), isLeaf_objectId base, isLeaf_objectId head, by simp⟩
  | @revision _ _ _ base head =>
      simp only [actionEntries, List.forall_mem_cons, Value.entry]
      exact ⟨isLeaf_unsigned 1, isLeaf_objectId base, isLeaf_objectId head, by simp⟩
  | closing h =>
      simp only [actionEntries, List.forall_mem_cons, Value.entry]
      exact ⟨isLeaf_unsigned 2, hshort h (by decide), by simp⟩

/-- The parent, if there is one, is a leaf. -/
theorem isLeaf_parentEntries (parent : Option ObjectId) :
    ∀ e ∈ parentEntries parent, IsLeaf e.2 := by
  cases parent with
  | none => simp [parentEntries]
  | some id => simpa [parentEntries, Value.entry] using isLeaf_objectId id

/-- A lawful change is a flat record. -/
theorem flat_entries (h : c.Lawful) : Flat c.entries := by
  have hkeys := keys_entries h
  refine ⟨fun e he => ?_, ?_, ?_⟩
  · have hkey := List.mem_map_of_mem (f := Prod.fst) he
    rw [hkeys] at hkey
    obtain ⟨key, -, heq⟩ := List.mem_map.mp hkey
    exact ⟨key, heq.symm⟩
  · rw [hkeys]
    exact (nodup_keysOf _).map fun _ _ => Value.unsigned.inj
  · simp only [entries, List.forall_mem_append, List.forall_mem_cons, Value.entry]
    exact ⟨⟨isLeaf_parentEntries c.parent, isLeaf_bytes c.author.key (by decide),
      isLeaf_ofInt64 c.timestamp, by simp⟩, isLeaf_actionEntries h⟩

/-- No change has more than seven entries. -/
theorem length_entries_le (h : c.Lawful) : c.entries.length ≤ 7 := by
  have hlength := congrArg List.length (keys_entries h)
  rw [List.length_map, List.length_map] at hlength
  rw [hlength]
  exact length_keysOf_le _

/-! ### What is read -/

variable {fields : Fields}

/-- A revision is read exactly if both of its commits are in their fields. -/
theorem revisionOfFields_eq_ok_iff {base head : ObjectId} :
    revisionOfFields fields = .ok (base, head) ↔
      fields.get? 6 = some (.bytes base.bytes) ∧ fields.get? 7 = some (.bytes head.bytes) := by
  obtain ⟨base⟩ := base
  obtain ⟨head⟩ := head
  simp only [revisionOfFields, bind_eq_ok_iff, Fields.bytes_eq_ok_iff, pure, Except.pure,
    Except.ok.injEq, Prod.mk.injEq, ObjectId.mk.injEq]
  constructor
  · rintro ⟨_, hbase, _, hhead, rfl, rfl⟩
    exact ⟨hbase, hhead⟩
  · rintro ⟨hbase, hhead⟩
    exact ⟨base, hbase, head, hhead, rfl, rfl⟩

/-- The fields say what a change does if they are the ones that are written for it. -/
theorem actionOfFields_eq_ok_iff {action : Action} :
    actionOfFields fields = .ok action ↔ fields.Holds (actionEntries action) := by
  simp only [actionOfFields, bind_eq_ok_iff, mapError_eq_ok_iff, Fields.unsigned_eq_ok_iff]
  constructor
  · rintro ⟨kind, hkind, h⟩
    split at h
    · simp only [bind_eq_ok_iff, mapError_eq_ok_iff, Fields.text_eq_ok_iff, Prod.exists,
        revisionOfFields_eq_ok_iff, BranchName.ofText_eq_ok_iff, pure, Except.pure,
        Except.ok.injEq] at h
      obtain ⟨_, htarget, target, rfl, title, htitle, base, head, ⟨hbase, hhead⟩, rfl⟩ := h
      simp [actionEntries, hkind, htarget, htitle, hbase, hhead]
    · simp only [bind_eq_ok_iff, mapError_eq_ok_iff, Prod.exists, revisionOfFields_eq_ok_iff, pure,
        Except.pure, Except.ok.injEq] at h
      obtain ⟨base, head, ⟨hbase, hhead⟩, rfl⟩ := h
      simp [actionEntries, hkind, hbase, hhead]
    · simp only [bind_eq_ok_iff, mapError_eq_ok_iff, Fields.text_eq_ok_iff, pure, Except.pure,
        Except.ok.injEq] at h
      obtain ⟨reason, hreason, rfl⟩ := h
      simp [actionEntries, hkind, hreason]
    · cases h
  · intro h
    cases action with
    | openPatch target title base head =>
        simp only [actionEntries, Fields.holds_cons_entry, Fields.holds_nil, and_true] at h
        obtain ⟨hkind, htarget, htitle, hbase, hhead⟩ := h
        refine ⟨0, hkind, ?_⟩
        simp only [bind_eq_ok_iff, mapError_eq_ok_iff, Fields.text_eq_ok_iff]
        exact ⟨_, htarget, target, BranchName.ofText_eq_ok_iff.mpr rfl, title, htitle, (base, head),
          revisionOfFields_eq_ok_iff.mpr ⟨hbase, hhead⟩, rfl⟩
    | revise base head =>
        simp only [actionEntries, Fields.holds_cons_entry, Fields.holds_nil, and_true] at h
        obtain ⟨hkind, hbase, hhead⟩ := h
        refine ⟨1, hkind, ?_⟩
        simp only [bind_eq_ok_iff, mapError_eq_ok_iff]
        exact ⟨(base, head), revisionOfFields_eq_ok_iff.mpr ⟨hbase, hhead⟩, rfl⟩
    | close reason =>
        simp only [actionEntries, Fields.holds_cons_entry, Fields.holds_nil, and_true] at h
        obtain ⟨hkind, hreason⟩ := h
        refine ⟨2, hkind, ?_⟩
        simp only [bind_eq_ok_iff, mapError_eq_ok_iff, Fields.text_eq_ok_iff]
        exact ⟨reason, hreason, rfl⟩

/-- The kind is among the fields of a change. -/
theorem get?_kind (h : fields.Holds c.entries) :
    fields.get? 3 = some (.unsigned (kindOf c.action)) := by
  rw [entries, Fields.holds_append] at h
  obtain ⟨-, haction⟩ := h
  generalize c.action = action at haction
  cases action with
  | openPatch => exact (Fields.holds_cons_entry.mp haction).1
  | revise => exact (Fields.holds_cons_entry.mp haction).1
  | close => exact (Fields.holds_cons_entry.mp haction).1

/-- The fields have the parent of a change; where it has none, they may say so by a null. -/
def HasParent (fields : Fields) : Option ObjectId → Prop
  | some parent => fields.get? 0 = some (.bytes parent.bytes)
  | none => fields.get? 0 = none ∨ fields.get? 0 = some .null

/-- What is read as the parent is the one that the fields have. -/
theorem parent_eq_ok_iff {parent : Option ObjectId} :
    (∃ read, fields.bytes? 20 0 "parent" = .ok read ∧ read.map ObjectId.mk = parent) ↔
      HasParent fields parent := by
  cases parent with
  | none => simp [HasParent, Fields.bytes?_eq_ok_none_iff]
  | some parent =>
      obtain ⟨value⟩ := parent
      simp [HasParent, Fields.bytes?_eq_ok_some_iff, ObjectId.bytes]

/-- Fields with a parent hold its entry. -/
theorem HasParent.holds {parent : Option ObjectId} (h : HasParent fields parent) :
    fields.Holds (parentEntries parent) := by
  cases parent with
  | none => exact Fields.holds_nil
  | some parent => exact Fields.holds_cons_entry.mpr ⟨h, Fields.holds_nil⟩

/-- A value is a change if it has the fields that are written for one that follows the rules. What
else is in it does not matter, except that it must not name a parent where there is none. -/
theorem ofValue_eq_ok_iff {value : Value} :
    ofValue value = .ok c ↔ ∃ entries, value = .map entries ∧ c.Lawful ∧
      (Fields.mk "change" entries).Holds c.entries ∧
        HasParent (.mk "change" entries) c.parent := by
  cases value with
  | map entries =>
      simp only [ofValue, bind_eq_ok_iff, mapError_eq_ok_iff, Fields.ofValue, Except.ok.injEq,
        exists_eq_left', actionOfFields_eq_ok_iff, Fields.bytes_eq_ok_iff, Fields.signed_eq_ok_iff,
        pure, Except.pure, Value.map.injEq]
      constructor
      · rintro ⟨action, haction, read, hread, author, hauthor, timestamp, htimestamp, _, hvalid,
          rfl⟩
        have hparent := parent_eq_ok_iff.mp ⟨read, hread, rfl⟩
        refine ⟨validate_eq_ok_iff.mp hvalid, ?_, hparent⟩
        rw [Change.entries, Fields.holds_append, Fields.holds_append]
        exact ⟨⟨hparent.holds, by simp [hauthor, htimestamp, PeerId.bytes]⟩, haction⟩
      · rintro ⟨hlawful, hholds, hparent⟩
        obtain ⟨parent, ⟨author⟩, timestamp, action⟩ := c
        rw [Change.entries, Fields.holds_append, Fields.holds_append] at hholds
        obtain ⟨⟨-, hcommon⟩, haction⟩ := hholds
        simp only [Fields.holds_cons_entry, Fields.holds_nil, and_true] at hcommon
        obtain ⟨read, hread, rfl⟩ := parent_eq_ok_iff.mpr hparent
        exact ⟨action, haction, read, hread, author, hcommon.1, timestamp, hcommon.2, (),
          validate_eq_ok_iff.mpr hlawful, rfl⟩
  | _ =>
      refine iff_of_false (fun h => by cases h) ?_
      rintro ⟨_, h, -⟩
      cases h

/-- The fields of a change have its parent, unless they have a parent and it has none. -/
theorem Lawful.hasParent (h : c.Lawful) (hholds : fields.Holds c.entries)
    (hnone : 0 ∉ keysOf (kindOf c.action) → fields.get? 0 = none ∨ fields.get? 0 = some .null) :
    HasParent fields c.parent := by
  cases h with
  | opening => exact hnone (show 0 ∉ keysOf 0 by decide)
  | revision => exact (Fields.holds_cons_entry.mp hholds).1
  | closing => exact (Fields.holds_cons_entry.mp hholds).1

/-- A change that follows the rules is read back from its entries in any order. -/
theorem ofValue_of_perm {entries : List (Value × Value)} (h : c.Lawful)
    (hperm : entries.Perm c.entries) : ofValue (.map entries) = .ok c := by
  have hholds := (flat_entries h).holds_of_perm hperm "change"
  refine ofValue_eq_ok_iff.mpr ⟨entries, rfl, h, hholds, h.hasParent hholds fun hzero => .inl ?_⟩
  rw [Fields.get?_eq_none_iff]
  exact fun value hmem => entry_notMem_entries h hzero value (hperm.mem_iff.mp hmem)

/-! ### The bytes that are signed -/

/-- A change can be signed if it is lawful, and what is signed is its encoded form. -/
theorem signingBytes_eq_ok_iff {bytes : Bytes} :
    c.signingBytes = .ok bytes ↔ c.Lawful ∧ encode c.toValue = .ok bytes := by
  rw [signingBytes, bind_eq_ok_iff, ← validate_eq_ok_iff]
  simp only [mapError_eq_ok_iff]
  exact ⟨fun ⟨_, hvalid, hencode⟩ => ⟨hvalid, hencode⟩,
    fun ⟨hvalid, hencode⟩ => ⟨(), hvalid, hencode⟩⟩

/-- A change has signing bytes if it follows the rules. -/
theorem signingBytes_of_lawful (h : c.Lawful) : c.signingBytes = .ok (form c.toValue) :=
  signingBytes_eq_ok_iff.mpr ⟨h, (flat_entries h).hasForm.encode_eq⟩

/-- What is signed is read back, in some order. -/
theorem decode_signingBytes {bytes : Bytes} (h : c.signingBytes = .ok bytes) :
    ∃ entries, entries.Perm c.entries ∧ decode bytes = .ok (.map entries) := by
  obtain ⟨hlawful, hencode⟩ := signingBytes_eq_ok_iff.mp h
  have hlength := Nat.lt_of_le_of_lt (length_entries_le hlawful) (by decide : 7 < UInt64.size)
  rw [← form_eq hencode]
  exact (flat_entries hlawful).exists_decode hlength

end Change

/-! ### Signed changes -/

/-- Where a value can be read, it ends before the signature. -/
theorem splitSignature?_of_decode {body : Bytes} {value : Value} (h : decode body = .ok value)
    (signature : Signature) :
    splitSignature? (body ++ signature.bytes) = some (body, signature) := by
  refine splitSignature?_append ?_ signature
  rintro rfl
  cases h

namespace SignedChange

variable {s : SignedChange} {bytes : Bytes}

/-- A signed change is sent as what was signed, with the signature behind it. -/
theorem encode_eq_ok_iff :
    s.encode = .ok bytes ↔
      ∃ body, s.change.signingBytes = .ok body ∧ bytes = body ++ s.signature.bytes := by
  rw [encode, bind_eq_ok_iff]
  simp only [pure, Except.pure, Except.ok.injEq, eq_comm]

/-- A signed change can be written if it follows the rules. -/
theorem encode_of_lawful (h : s.change.Lawful) :
    s.encode = .ok (form s.change.toValue ++ s.signature.bytes) :=
  encode_eq_ok_iff.mpr ⟨_, Change.signingBytes_of_lawful h, rfl⟩

/-- A signed change is read if a signature can be split off and what is left of the bytes reads as
the change. -/
theorem decode_eq_ok_iff :
    decode bytes = .ok s ↔ ∃ body value, splitSignature? bytes = some (body, s.signature) ∧
      Cbor.decode body = .ok value ∧ Change.ofValue value = .ok s.change := by
  obtain ⟨change, signature⟩ := s
  unfold decode
  cases splitSignature? bytes with
  | none =>
      refine iff_of_false (fun h => by cases h) ?_
      rintro ⟨body, value, h, -⟩
      cases h
  | some parts =>
      obtain ⟨body, signature'⟩ := parts
      simp only [bind_eq_ok_iff, mapError_eq_ok_iff, pure, Except.pure, Except.ok.injEq,
        Option.some.injEq, Prod.mk.injEq, SignedChange.mk.injEq]
      constructor
      · rintro ⟨value, hvalue, _, hchange, rfl, rfl⟩
        exact ⟨body, value, ⟨rfl, rfl⟩, hvalue, hchange⟩
      · rintro ⟨_, value, ⟨rfl, rfl⟩, hvalue, hchange⟩
        exact ⟨value, hvalue, change, hchange, rfl, rfl⟩

/-- What is read follows the rules. -/
theorem lawful_of_decode (h : decode bytes = .ok s) : s.change.Lawful := by
  obtain ⟨body, value, -, -, hchange⟩ := decode_eq_ok_iff.mp h
  obtain ⟨entries, -, hlawful, -⟩ := Change.ofValue_eq_ok_iff.mp hchange
  exact hlawful

/-- A signed change survives the wire. -/
theorem decode_encode (h : s.encode = .ok bytes) : decode bytes = .ok s := by
  obtain ⟨body, hbody, rfl⟩ := encode_eq_ok_iff.mp h
  obtain ⟨entries, hperm, hdecode⟩ := Change.decode_signingBytes hbody
  exact decode_eq_ok_iff.mpr ⟨body, _, splitSignature?_of_decode hdecode s.signature, hdecode,
    Change.ofValue_of_perm (Change.signingBytes_eq_ok_iff.mp hbody).1 hperm⟩

/-- The rules are all that a signed change has to follow to be written and read back unchanged,
whoever signed it, and nothing is read that does not follow them. -/
theorem wire_round_trip :
    (∀ c : Change, c.validate = .ok () ↔ c.Lawful) ∧
      (∀ s : SignedChange, s.change.validate = .ok () →
        ∃ bytes, s.encode = .ok bytes ∧ decode bytes = .ok s) ∧
      ∀ (bytes : Bytes) (s : SignedChange), decode bytes = .ok s →
        s.change.validate = .ok () := by
  refine ⟨fun c => Change.validate_eq_ok_iff, fun s hvalid => ?_, fun bytes s h => ?_⟩
  · have hencode := encode_of_lawful (Change.validate_eq_ok_iff.mp hvalid)
    exact ⟨_, hencode, decode_encode hencode⟩
  · exact Change.validate_eq_ok_iff.mpr (lawful_of_decode h)

namespace Early

/-- A patch is closed as long ago as can be said. -/
def close : SignedChange where
  change :=
    { parent := some ⟨.replicate 20 7⟩
      author := ⟨.replicate 32 0xcd⟩
      timestamp := Int64.minValue
      action := .close "überholt" }
  signature := ⟨.replicate 64 0xff⟩

/-- What is sent for it. -/
def sent : Bytes :=
  [0xa5, 0x00, 0x54] ++ List.replicate 20 7 ++ [0x01, 0x58, 0x20] ++ List.replicate 32 0xcd ++
    [0x02, 0x3b, 0x7f] ++ List.replicate 7 0xff ++ [0x03, 0x02, 0x08, 0x69] ++
      Bytes.ofText "überholt" ++ List.replicate 64 0xff

/-- A close from before the epoch follows the rules and is read back. -/
theorem close_survives : close.change.validate = .ok () ∧ close.encode = .ok sent ∧
    decode sent = .ok close := by
  have hvalid : close.change.validate = .ok () := by decide
  have hsent : close.encode = .ok sent := by decide
  obtain ⟨bytes, hencode, hdecode⟩ := wire_round_trip.2.1 close hvalid
  obtain rfl := Except.ok.inj (hsent.symm.trans hencode)
  exact ⟨hvalid, hsent, hdecode⟩

end Early

end SignedChange

end SignedRefs
