import SignedRefs.Record.Signed

/-!
# Signed Changes

The history of a patch is a chain of signed changes. The first one opens the patch, and its name
becomes the name of the patch; every later one revises or closes it and names the change that it
builds on as its parent. The canonical form of a change is a map: the parent under 0, the author
under 1, the time under 2, the kind under 3, and what belongs to the kind under 4 to 8.

A change is named by its encoded form (`SignedChange.id`).
-/

namespace SignedRefs

/-- What a change does to its patch. -/
inductive Action
  /-- Opens a patch that proposes to bring `head` into `target`. -/
  | openPatch (target : BranchName) (title : String) (base head : ObjectId)
  /-- Proposes another head. -/
  | revise (base head : ObjectId)
  /-- Closes the patch. -/
  | close (reason : String)
deriving DecidableEq

/-- A step in the history of a patch. -/
structure Change where
  /-- The change that this one builds on. -/
  parent : Option ObjectId
  /-- Who makes the change. -/
  author : PeerId
  /-- When the author says it was made, in milliseconds. -/
  timestamp : Int64
  /-- What it does. -/
  action : Action
deriving DecidableEq

namespace Change

/-- The longest title, in bytes. -/
def maxTitle : Nat := 256

/-- The longest reason, in bytes. -/
def maxReason : Nat := 1024

/-- The base and head that a change proposes, if it does. -/
def revision? (c : Change) : Option (ObjectId × ObjectId) :=
  match c.action with
  | .openPatch _ _ base head => some (base, head)
  | .revise base head => some (base, head)
  | .close _ => none

/-- The first rule that a change breaks: only the change that opens a patch has no parent, and
titles and reasons are bounded. -/
def fault? (c : Change) : Option Malformed :=
  match c.action, c.parent with
  | .openPatch .., some _ => some .openWithParent
  | .revise .., none => some .missingParent
  | .close .., none => some .missingParent
  | .openPatch _ title _ _, none =>
    if maxTitle < title.utf8ByteSize then some .titleTooLong else none
  | .close reason, some _ =>
    if maxReason < reason.utf8ByteSize then some .reasonTooLong else none
  | .revise .., some _ => none

/-- Checks the rules that hold for every signed change. -/
def validate (c : Change) : Except RecordError Unit :=
  match c.fault? with
  | some fault => .error (.malformed fault)
  | none => .ok ()

/-! ### Canonical form -/

/-- The entries that belong to what the change does, its kind first. -/
def actionEntries : Action → List (Cbor.Value × Cbor.Value)
  | .openPatch target title base head =>
    [Cbor.Value.entry 3 (.unsigned 0), Cbor.Value.entry 4 (.text target.text),
      Cbor.Value.entry 5 (.text title), Cbor.Value.entry 6 (.bytes base.bytes),
      Cbor.Value.entry 7 (.bytes head.bytes)]
  | .revise base head =>
    [Cbor.Value.entry 3 (.unsigned 1), Cbor.Value.entry 6 (.bytes base.bytes),
      Cbor.Value.entry 7 (.bytes head.bytes)]
  | .close reason =>
    [Cbor.Value.entry 3 (.unsigned 2), Cbor.Value.entry 8 (.text reason)]

/-- The entry of the parent, if there is one. -/
def parentEntries : Option ObjectId → List (Cbor.Value × Cbor.Value)
  | some parent => [Cbor.Value.entry 0 (.bytes parent.bytes)]
  | none => []

/-- The change as a CBOR value. -/
def toValue (c : Change) : Cbor.Value :=
  .map (parentEntries c.parent ++
    [Cbor.Value.entry 1 (.bytes c.author.bytes), Cbor.Value.entry 2 (.ofInt64 c.timestamp)] ++
    actionEntries c.action)

/-- The base and the head in the fields of a change. -/
def revisionOfFields (fields : Cbor.Fields) : Except Cbor.FieldFault (ObjectId × ObjectId) := do
  let base ← fields.bytes 20 6 "base"
  let head ← fields.bytes 20 7 "head"
  return (⟨base⟩, ⟨head⟩)

/-- What the fields of a change say it does. -/
def actionOfFields (fields : Cbor.Fields) : Except RecordError Action := do
  match ← (fields.unsigned 3 "kind").mapError .ofField with
  | 0 =>
    let target ← (fields.text 4 "target").mapError .ofField
    let target ← (BranchName.ofText target).mapError .refName
    let title ← (fields.text 5 "title").mapError .ofField
    let (base, head) ← (revisionOfFields fields).mapError .ofField
    return .openPatch target title base head
  | 1 =>
    let (base, head) ← (revisionOfFields fields).mapError .ofField
    return .revise base head
  | 2 => return .close (← (fields.text 8 "reason").mapError .ofField)
  | kind => throw (.malformed (.unknownKind kind))

/-- The change of a CBOR value. Entries that do not belong to its kind are not looked at. -/
def ofValue (value : Cbor.Value) : Except RecordError Change := do
  let fields ← (Cbor.Fields.ofValue "change" value).mapError .ofField
  let action ← actionOfFields fields
  let parent ← (fields.bytes? 20 0 "parent").mapError .ofField
  let author ← (fields.bytes 32 1 "author").mapError .ofField
  let timestamp ← (fields.signed 2 "timestamp").mapError .ofField
  let change : Change := ⟨parent.map ObjectId.mk, ⟨author⟩, timestamp, action⟩
  change.validate
  return change

/-- The bytes that the author signs. -/
def signingBytes (c : Change) : Except RecordError Bytes := do
  c.validate
  (Cbor.encode c.toValue).mapError .encoding

end Change

/-! ### Signed changes -/

/-- A change with a signature, which need not be its author's. -/
structure SignedChange where
  /-- The change. -/
  change : Change
  /-- The signature. -/
  signature : Signature
deriving DecidableEq

/-- Signs a change; the key has to be its author's. -/
def Change.sign (c : Change) (keys : Keypair) : Except RecordError SignedChange :=
  let id := keys.peerId
  if id ≠ c.author then .error (.notAuthor id c.author)
  else do return ⟨c, keys.sign (← c.signingBytes)⟩

namespace SignedChange

/-- Checks that the signature is the author's over a change that follows the rules. -/
def verify (s : SignedChange) : Except RecordError Unit := do
  s.change.author.verify (← s.change.signingBytes) s.signature

/-- The form in which the change is sent and named. -/
def encode (s : SignedChange) : Except RecordError Bytes :=
  return (← s.change.signingBytes) ++ s.signature.bytes

/-- The signed change of a byte string. The signature is not checked. -/
def decode (bytes : Bytes) : Except RecordError SignedChange :=
  match splitSignature? bytes with
  | none => .error (.malformed .changeTooShort)
  | some (body, signature) => do
    let value ← (Cbor.decode body).mapError .ofDecode
    return ⟨← Change.ofValue value, signature⟩

/-- The name of the change. -/
def id (s : SignedChange) : Except RecordError ObjectId :=
  return ObjectId.digest (← s.encode)

end SignedChange

end SignedRefs
