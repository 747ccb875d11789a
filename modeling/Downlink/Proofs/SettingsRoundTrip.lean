import Mathlib.Data.List.Forall2
import Downlink.Config.Reader
import Downlink.Config.Writer
import Downlink.Proofs.AddressText
import Downlink.Proofs.LayoutChecking
import Downlink.Proofs.SettingsWriting

/-!
# Configurations written and read again

A configuration is written member by member and read member by member. So a member that is taken
away reads as its default and leaves the others as they are (`read?_without`), and with all members
the configuration itself is read again. Within the layout some members may be left out and nothing
changes: those of a field that say what holds without them (`Field.read?_of_writes`), and a length
that is the sum of the widths (`Layout.Draft.exists_read?_of_writes`).

It does not matter whether all this is in JSON or in YAML (`readsBack_of_suits`).
-/

namespace Downlink

open Settings

variable {ν : Type} {w : NodeWriter ν} {view : NodeView ν}

/-! ## Fields -/

namespace Field

/-- The members under which a field is written. -/
def members (w : NodeWriter ν) (f : Field) : Members ν :=
  [("name", w.text f.name), ("bit_width", w.natural f.width), ("signed", w.boolean f.signed),
   ("scale", w.natural f.scale.toNat), ("reserved", w.boolean f.reserved)]

/-- Whether a member of a field may be left out because it says what holds without it. -/
def Omits (f : Field) : String → Prop
  | "signed" => f.signed = false
  | "scale" => f.scale = 1
  | "reserved" => f.reserved = false
  | _ => False

/-- A node of a field, from which some members may be left out. -/
def Writes (w : NodeWriter ν) (f : Field) (node : ν) : Prop :=
  ∃ dropped : List String, (∀ name ∈ dropped, f.Omits name) ∧
    node = w.members ((f.members w).without dropped)

/-- **A field is read back, whatever is left out that holds anyway.** -/
theorem read?_of_writes (hw : w.Suits view) {f : Field} {node : ν} (hf : f.Valid)
    (h : f.Writes w node) : Field.read? view node = some f := by
  obtain ⟨dropped, homits, rfl⟩ := h
  have hmembers : view.members? .ignored ["name", "bit_width", "signed", "scale", "reserved"]
      (w.members ((f.members w).without dropped)) = some ((f.members w).without dropped) :=
    hw.members? .ignored (by decide) (Members.map_fst_without_sublist _ _)
  have hlt : f.width < UInt32.size :=
    Nat.lt_of_le_of_lt hf.width_le (by decide)
  have hname : ((f.members w).without dropped).required "name" view.text? = some f.name := by
    rw [Members.required_without fun hmem => homits "name" hmem]
    exact hw.text? f.name
  have hwidth : ((f.members w).without dropped).required "bit_width" view.word32? =
      some (UInt32.ofNat f.width) := by
    rw [Members.required_without fun hmem => homits "bit_width" hmem]
    exact hw.word32?_of_lt hlt
  have hsigned : ((f.members w).without dropped).optional "signed" false view.boolean? =
      some f.signed :=
    Members.optional_without_eq (homits "signed") (hw.boolean? f.signed)
  have hscale : ((f.members w).without dropped).optional "scale" 1 view.word32? = some f.scale :=
    Members.optional_without_eq (homits "scale") (hw.word32? f.scale)
  have hreserved : ((f.members w).without dropped).optional "reserved" false view.boolean? =
      some f.reserved :=
    Members.optional_without_eq (homits "reserved") (hw.boolean? f.reserved)
  simp only [read?, hmembers, hname, hwidth, hsigned, hscale, hreserved, Option.bind_eq_bind,
    Option.bind_some, Option.pure_def, UInt32.toNat_ofNat_of_lt' hlt]

theorem writes_members (w : NodeWriter ν) (f : Field) : f.Writes w (w.members (f.members w)) := by
  refine ⟨[], ?_, ?_⟩
  · intro name hname
    cases hname
  · rw [Members.without_nil]

end Field

/-! ## Layouts -/

namespace Layout.Draft

/-- The members under which a layout is written, given the nodes of its fields. -/
def members (w : NodeWriter ν) (nodes : List ν) (frameBits : Option Nat) : Members ν :=
  ("fields", w.items nodes) :: frameBits.toList.map fun n => ("frame_bits", w.natural n)

/-- A node of a layout, from which members of its fields may be left out, and its length if that is
the sum of the widths. -/
def Writes (w : NodeWriter ν) (d : Layout.Draft) (node : ν) : Prop :=
  ∃ nodes frameBits, List.Forall₂ (Field.Writes w) d.fields nodes ∧
    (frameBits = d.frameBits ∨ frameBits = none ∧ d.frameBits = some (totalWidth d.fields)) ∧
    node = w.members (members w nodes frameBits)

theorem read?_members (hw : w.Suits view) {fields : List Field} {nodes : List ν}
    {frameBits : Option Nat} (hfields : ∀ f ∈ fields, f.Valid)
    (hnodes : List.Forall₂ (Field.Writes w) fields nodes)
    (hword : ∀ n ∈ frameBits, n < UInt64.size) :
    Layout.Draft.read? view (w.members (members w nodes frameBits)) = some ⟨fields, frameBits⟩ := by
  have hlist : view.listOf? (Field.read? view) (w.items nodes) = some fields := by
    apply hw.listOf?
    clear hword
    induction hnodes with
    | nil => exact .nil
    | cons hnode _ ih =>
      obtain ⟨hfield, hothers⟩ := List.forall_mem_cons.1 hfields
      exact .cons (Field.read?_of_writes hw hfield hnode) (ih hothers)
  have hmembers : view.members? .ignored ["fields", "frame_bits"]
      (w.members (members w nodes frameBits)) = some (members w nodes frameBits) := by
    apply hw.members? .ignored (by decide)
    cases frameBits with
    | none => exact List.Sublist.cons_cons _ (List.nil_sublist _)
    | some n => exact List.Sublist.refl _
  have hrequired : (members w nodes frameBits).required "fields"
      (view.listOf? (Field.read? view)) = some fields := hlist
  have hoptional : (members w nodes frameBits).optional "frame_bits" none
      (view.orNothing? view.word64?) = some (frameBits.map UInt64.ofNat) := by
    cases frameBits with
    | none => rfl
    | some n =>
      show view.orNothing? view.word64? (w.natural n) = _
      rw [hw.orNothing?_natural, hw.word64?_of_lt (hword n rfl)]
      rfl
  have hback : (frameBits.map UInt64.ofNat).map UInt64.toNat = frameBits := by
    cases frameBits with
    | none => rfl
    | some n => simp [UInt64.toNat_ofNat_of_lt' (hword n rfl)]
  simp only [read?, hmembers, hrequired, hoptional, hback, Option.bind_eq_bind, Option.bind_some,
    Option.pure_def]

theorem frameBits_lt_of_read? {node : ν} {d : Layout.Draft}
    (h : Layout.Draft.read? view node = some d) : ∀ n ∈ d.frameBits, n < UInt64.size := by
  simp only [read?, Option.bind_eq_bind, Option.bind_eq_some_iff, Option.pure_def,
    Option.some.injEq] at h
  obtain ⟨m, -, fields, -, frameBits, -, rfl⟩ := h
  intro n hn
  obtain ⟨bits, -, rfl⟩ := Option.map_eq_some_iff.1 hn
  exact bits.toNat_lt

theorem exists_read?_of_writes (hw : w.Suits view) {d : Layout.Draft} {node : ν} {l : Layout}
    (hbuild : d.build = .ok l) (hword : ∀ n ∈ d.frameBits, n < UInt64.size) (h : d.Writes w node) :
    ∃ brief : Layout.Draft, Layout.Draft.read? view node = some brief ∧ brief.fields = d.fields ∧
      brief.build = .ok l := by
  obtain ⟨nodes, frameBits, hnodes, hframe, rfl⟩ := h
  obtain ⟨-, hsound, -⟩ := ofFields_eq_ok_iff.1 hbuild
  refine ⟨⟨d.fields, frameBits⟩, read?_members hw hsound.valid hnodes ?_, rfl, ?_⟩
  · rcases hframe with rfl | ⟨rfl, -⟩
    · exact hword
    · exact fun n hn => by cases hn
  · rcases hframe with rfl | ⟨rfl, hlength⟩
    · exact hbuild
    · rw [build, hlength] at hbuild
      exact hbuild

/-- The node under which a layout is written, with all that is said about its fields. -/
def node (w : NodeWriter ν) (d : Layout.Draft) : ν :=
  w.members (members w (d.fields.map fun f => w.members (f.members w)) d.frameBits)

theorem read?_node (hw : w.Suits view) {d : Layout.Draft} {l : Layout} (hbuild : d.build = .ok l)
    (hword : ∀ n ∈ d.frameBits, n < UInt64.size) : Layout.Draft.read? view (d.node w) = some d := by
  obtain ⟨-, hsound, -⟩ := ofFields_eq_ok_iff.1 hbuild
  refine read?_members hw hsound.valid ?_ hword
  rw [List.forall₂_map_right_iff]
  exact List.forall₂_same.2 fun f _ => f.writes_members w

end Layout.Draft

/-! ## Markers and rates -/

def Marker.node (w : NodeWriter ν) (m : Marker) : ν :=
  w.items (m.toBytes.map fun b => w.natural b.toNat)

theorem Marker.read?_node (hw : w.Suits view) (m : Marker) :
    Marker.read? view (m.node w) = some m := by
  have hlist : view.listOf? view.byte? (m.node w) = some m.toBytes := by
    apply hw.listOf?
    rw [List.forall₂_map_right_iff]
    exact List.forall₂_same.2 fun b _ => hw.byte? b
  rw [read?, hlist]
  rfl

def Markers.node (w : NodeWriter ν) (m : Markers) : ν :=
  w.members [("sync", m.sync.node w), ("terminator", m.terminator.node w)]

theorem Markers.read?_node (hw : w.Suits view) (m : Markers) :
    Markers.read? view (m.node w) = some m := by
  have hmembers : view.members? .ignored ["sync", "terminator"] (m.node w) =
      some [("sync", m.sync.node w), ("terminator", m.terminator.node w)] :=
    hw.members? .ignored (by decide) (List.Sublist.refl _)
  have hsync : Members.required [("sync", m.sync.node w), ("terminator", m.terminator.node w)]
      "sync" (Marker.read? view) = some m.sync :=
    m.sync.read?_node hw
  have hterminator : Members.required [("sync", m.sync.node w), ("terminator", m.terminator.node w)]
      "terminator" (Marker.read? view) = some m.terminator :=
    m.terminator.read?_node hw
  simp only [read?, hmembers, hsync, hterminator, Option.bind_eq_bind, Option.bind_some,
    Option.pure_def]

def UpdateRate.node (w : NodeWriter ν) : UpdateRate → ν
  | .native => w.choice "native"
  | .max perSecond => w.choiceOf "max" perSecond.toNat

theorem UpdateRate.read?_node (hw : w.Suits view) (rate : UpdateRate) :
    UpdateRate.read? view (rate.node w) = some rate := by
  cases rate with
  | native =>
    rw [read?, node, hw.choice?]
    rfl
  | max perSecond =>
    rw [read?, node, hw.choiceOf? "max" _ (by decide)]
    show (view.word32? (w.natural perSecond.toNat)).bind (fun n => some (UpdateRate.max n)) = _
    rw [hw.word32?, Option.bind_some]

/-! ## Configurations -/

namespace Config

/-- The members under which a configuration is written, given the node of its layout. -/
def membersAround (w : NodeWriter ν) (layout : Option ν) (c : Config) : Members ν :=
  [("bind", w.text c.bind.text), ("recv_buffer", w.natural c.receiveBuffer.toNat),
    ("markers", c.markers.node w)]
  ++ (layout.toList.map fun node => ("schema", node))
  ++ [("require_exact_consumption", w.boolean c.exact), ("update_rate", c.updateRate.node w),
    ("max_transport_errors", w.natural c.maxTransportErrors.toNat)]

/-- The members under which a configuration is written. -/
def membersIn (w : NodeWriter ν) (c : Config) : Members ν :=
  c.membersAround w (c.layout.map (·.node w))

theorem members_json (c : Config) :
    NodeWriter.json.members (c.membersIn .json) = c.toJson := by
  rw [membersIn, membersAround, toJson, members]
  cases c.layout with
  | none => rfl
  | some draft => rfl

/-- A configuration with the defaults under some names. -/
def defaultedOn (dropped : List String) (c : Config) : Config where
  bind := if "bind" ∈ dropped then flight.bind else c.bind
  receiveBuffer := if "recv_buffer" ∈ dropped then flight.receiveBuffer else c.receiveBuffer
  markers := if "markers" ∈ dropped then flight.markers else c.markers
  layout := if "schema" ∈ dropped then flight.layout else c.layout
  exact := if "require_exact_consumption" ∈ dropped then flight.exact else c.exact
  updateRate := if "update_rate" ∈ dropped then flight.updateRate else c.updateRate
  maxTransportErrors :=
    if "max_transport_errors" ∈ dropped then flight.maxTransportErrors else c.maxTransportErrors

theorem defaultedOn_nil (c : Config) : c.defaultedOn [] = c := by
  simp [defaultedOn]

variable {c : Config}

theorem map_fst_membersAround_sublist (w : NodeWriter ν) (layout : Option ν) (c : Config) :
    ((c.membersAround w layout).map Prod.fst).Sublist names := by
  cases layout with
  | none => exact (by decide : List.Sublist ["bind", "recv_buffer", "markers",
      "require_exact_consumption", "update_rate", "max_transport_errors"] names)
  | some node => exact List.Sublist.refl names

/-- **What is taken away from a configuration reads as the default, and nothing else changes.** -/
theorem read?_without (hw : w.Suits view) {layout : Option ν}
    (hlayout : (c.membersAround w layout).optional "schema" flight.layout
      (view.orNothing? (Layout.Draft.read? view)) = some c.layout) (dropped : List String) :
    Config.read? view (w.members ((c.membersAround w layout).without dropped)) =
      some (c.defaultedOn dropped) := by
  have hmembers : view.members? .refused names
      (w.members ((c.membersAround w layout).without dropped)) =
        some ((c.membersAround w layout).without dropped) :=
    hw.members? .refused (by decide) ((Members.map_fst_without_sublist _ _).trans
      (map_fst_membersAround_sublist w layout c))
  have hbind : (c.membersAround w layout).optional "bind" flight.bind
      (fun n => (view.text? n).bind Address.ofText?) = some c.bind := by
    show (view.text? (w.text c.bind.text)).bind Address.ofText? = some c.bind
    rw [hw.text?, Option.bind_some, Address.ofText?_text]
  have hreceiveBuffer : (c.membersAround w layout).optional "recv_buffer" flight.receiveBuffer
      view.word64? = some c.receiveBuffer :=
    hw.word64? c.receiveBuffer
  have hmarkers : (c.membersAround w layout).optional "markers" flight.markers
      (Markers.read? view) = some c.markers :=
    c.markers.read?_node hw
  have hexact : (c.membersAround w layout).optional "require_exact_consumption" flight.exact
      view.boolean? = some c.exact := by
    cases layout <;> exact hw.boolean? c.exact
  have hupdateRate : (c.membersAround w layout).optional "update_rate" flight.updateRate
      (UpdateRate.read? view) = some c.updateRate := by
    cases layout <;> exact c.updateRate.read?_node hw
  have hmaxTransportErrors : (c.membersAround w layout).optional "max_transport_errors"
      flight.maxTransportErrors view.word32? = some c.maxTransportErrors := by
    cases layout <;> exact hw.word32? c.maxTransportErrors
  simp only [read?, hmembers, Members.optional_merged dropped hbind,
    Members.optional_merged dropped hreceiveBuffer, Members.optional_merged dropped hmarkers,
    Members.optional_merged dropped hlayout, Members.optional_merged dropped hexact,
    Members.optional_merged dropped hupdateRate,
    Members.optional_merged dropped hmaxTransportErrors, Option.bind_eq_bind, Option.bind_some,
    Option.pure_def]
  rfl

theorem read?_unknown (hw : w.Suits view) {m : Members ν} {name : String}
    (hmem : name ∈ m.map Prod.fst) (hname : name ∉ names) :
    Config.read? view (w.members m) = none := by
  rw [read?, hw.members?_refused hmem hname]
  rfl

/-- Lengths are words. -/
def WordSized (c : Config) : Prop :=
  ∀ draft ∈ c.layout, ∀ n ∈ draft.frameBits, n < UInt64.size

theorem wordSized_of_read? {node : ν} (h : Config.read? view node = some c) : c.WordSized := by
  simp only [read?, Option.bind_eq_bind, Option.bind_eq_some_iff, Option.pure_def,
    Option.some.injEq] at h
  obtain ⟨m, -, bind, -, receiveBuffer, -, markers, -, layout, hlayout, -, -, -, -, -, -, rfl⟩ := h
  rintro draft rfl
  rw [Members.optional] at hlayout
  split at hlayout
  · cases hlayout
  · obtain ⟨present?, -, hread⟩ := Option.bind_eq_some_iff.1 hlayout
    cases present? with
    | none => cases hread
    | some written =>
      obtain ⟨read, hdraft, ⟨⟩⟩ := Option.map_eq_some_iff.1 hread
      exact Layout.Draft.frameBits_lt_of_read? hdraft

/-- A configuration is merged with the defaults by its names when it is read back. -/
structure ReadsBack (view : NodeView ν) (w : NodeWriter ν) (c : Config) (l : Layout) : Prop where
  whole : Config.read? view (w.members (c.membersIn w)) = some c
  /-- The names that are taken away get their defaults, and the others keep what they say. -/
  merged : ∀ dropped : List String,
    Config.read? view (w.members ((c.membersIn w).without dropped)) = some (c.defaultedOn dropped)
  /-- Another name is refused, wherever it stands and whatever is taken away. -/
  strict : ∀ (before behind : Members ν) (name : String) (node : ν), name ∉ names →
    Config.read? view (w.members (before ++ (name, node) :: behind)) = none
  /-- Within the layout, what holds anyway may be left out. -/
  brief : ∀ draft node, c.layout = some draft → draft.Writes w node →
    ∃ read : Layout.Draft, read.fields = draft.fields ∧ read.build = .ok l ∧
      ∀ dropped : List String,
        Config.read? view (w.members ((c.membersAround w (some node)).without dropped)) =
          some ({ c with layout := some read }.defaultedOn dropped)

theorem lookup_schema (w : NodeWriter ν) (layout : Option ν) (c : Config) :
    (c.membersAround w layout).lookup "schema" = layout := by
  cases layout <;> rfl

theorem build_of_layout {draft : Layout.Draft} {l : Layout} (hcheck : c.check = .ok l)
    (hlayout : c.layout = some draft) : draft.build = .ok l := by
  obtain ⟨-, -, -, hbuild⟩ := checked hcheck
  rw [buildLayout, hlayout] at hbuild
  cases hdraft : draft.build with
  | ok layout => simpa [hdraft] using hbuild
  | error error => simp [hdraft] at hbuild

theorem optional_schema (hw : w.Suits view) {l : Layout} (hcheck : c.check = .ok l)
    (hword : c.WordSized) : (c.membersIn w).optional "schema" flight.layout
      (view.orNothing? (Layout.Draft.read? view)) = some c.layout := by
  rw [Members.optional, membersIn, lookup_schema]
  cases hlayout : c.layout with
  | none => rfl
  | some draft =>
    have hread := Layout.Draft.read?_node hw (build_of_layout hcheck hlayout) (hword draft hlayout)
    show view.orNothing? (Layout.Draft.read? view) (draft.node w) = some (some draft)
    rw [Layout.Draft.node, hw.orNothing?_members, ← Layout.Draft.node, hread, Option.map_some]

theorem readsBack_of_suits (hw : w.Suits view) {l : Layout} (hcheck : c.check = .ok l)
    (hword : c.WordSized) : c.ReadsBack view w l := by
  have hmerged := read?_without hw (optional_schema hw hcheck hword)
  refine ⟨?_, hmerged, ?_, ?_⟩
  · have hwhole := hmerged []
    rwa [Members.without_nil, defaultedOn_nil] at hwhole
  · intro before behind name node hname
    exact read?_unknown hw (List.mem_map_of_mem (List.mem_append_right _ List.mem_cons_self)) hname
  · intro draft node hlayout hwrites
    obtain ⟨read, hread, hfields, hbuild⟩ := Layout.Draft.exists_read?_of_writes hw
      (build_of_layout hcheck hlayout) (hword draft hlayout) hwrites
    refine ⟨read, hfields, hbuild, fun dropped => ?_⟩
    have hschema : (c.membersAround w (some node)).optional "schema" flight.layout
        (view.orNothing? (Layout.Draft.read? view)) = some (some read) := by
      obtain ⟨nodes, frameBits, -, -, rfl⟩ := hwrites
      rw [Members.optional, lookup_schema]
      show view.orNothing? (Layout.Draft.read? view) (w.members _) = _
      rw [hw.orNothing?_members, hread, Option.map_some]
    exact read?_without (c := { c with layout := some read }) hw hschema dropped

/-- **Writing a configuration loses nothing, and reading it is a merge with the defaults.** This
holds of the object that is written in JSON, and of the nodes that stand for it in YAML. -/
theorem written_readsBack (c : Config) (l : Layout) (hcheck : c.check = .ok l)
    (hword : c.WordSized) :
    NodeWriter.json.members (c.membersIn .json) = c.toJson ∧ c.ReadsBack .json .json l ∧
      ∀ d : Yaml.Document, c.ReadsBack (.yaml d) .yaml l :=
  ⟨c.members_json, readsBack_of_suits NodeWriter.suits_json hcheck hword,
    fun d => readsBack_of_suits (NodeWriter.suits_yaml d) hcheck hword⟩

/-- A link with two fields and a length of its own. -/
def twoFields : Config :=
  { flight with
    layout := some ⟨[.unsigned "fps" 8, (Field.unsigned "volts" 8).withScale 10], some 16⟩
    updateRate := .max 10 }

theorem twoFields_readsBack :
    ∃ l, twoFields.check = .ok l ∧ twoFields.WordSized ∧ twoFields.ReadsBack .json .json l ∧
      Config.read? .json
        (NodeWriter.json.members ((twoFields.membersIn .json).without ["schema", "bind"])) =
          some { flight with updateRate := .max 10 } := by
  obtain ⟨l, hcheck⟩ : ∃ l, twoFields.check = .ok l := ⟨_, rfl⟩
  have hword : twoFields.WordSized := by
    rintro _ ⟨⟩ _ ⟨⟩
    decide
  have hback := (written_readsBack twoFields l hcheck hword).2.1
  exact ⟨l, hcheck, hword, hback, hback.merged ["schema", "bind"]⟩

end Config

end Downlink
