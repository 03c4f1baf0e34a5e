import SignedRefs.Json.Identifier
import SignedRefs.Sync.Config

/-!
# Configuration of a Node

The settings for fetching and announcing, and the identities whose branches and closes count for
every patch. A configuration is kept as indented JSON, in which everything may be left out.
-/

namespace SignedRefs

open Json

/-- The settings of a node. -/
structure NodeConfig where
  /-- How namespaces are fetched. -/
  sync : SyncConfig
  /-- How the local namespace is announced. -/
  announce : AnnounceConfig
  /-- The identities that decide about patches beside their authors. -/
  delegates : List PeerId
deriving DecidableEq

namespace NodeConfig

/-- The standard settings. -/
def standard : NodeConfig := ⟨.standard, .standard, []⟩

/-- A list of identities. -/
def readDelegates (value : Value) : Option (List PeerId) := do
  (← value.items?).mapM PeerId.ofJson?

/-- The settings in a value. -/
def ofJson? (value : Value) : Option NodeConfig := do
  let fields ← Record.ofValue? ["sync", "announce", "delegates"] value
  return {
    sync := ← fields.getD "sync" SyncConfig.ofJson? standard.sync
    announce := ← fields.getD "announce" AnnounceConfig.ofJson? standard.announce
    delegates := ← fields.getD "delegates" readDelegates standard.delegates }

/-- The settings as a value. -/
def toJson (c : NodeConfig) : Value :=
  .ofFields [("sync", c.sync.toJson), ("announce", c.announce.toJson),
    ("delegates", .array (c.delegates.map fun id => .ofText id.hex))]

/-- Reads settings. -/
def parse? (text : String) : Option NodeConfig := (Value.parse? text).bind ofJson?

/-- The text that keeps the settings. -/
def save (c : NodeConfig) : String := c.toJson.pretty

end NodeConfig

end SignedRefs
