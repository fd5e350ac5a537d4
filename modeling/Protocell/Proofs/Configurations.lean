import Protocell.Command.Run
import Protocell.Proofs.SnapshotText
import Protocell.Proofs.Success

/-!
# Proofs/Configurations — what a text gives replaces the default

A configuration may be given in part: some of its fields, and some of those of the processor within
it (`Given`).  Which part a JSON value gives is said by name alone (`CellConfig.IsGiven`), so fields
may stand in any order and others among them.  Such a value is read as the default configuration
with just the given part replaced (`CellConfig.IsGiven.ofJson?_eq`).  A written configuration gives
all its fields, so it comes back whole.
-/

namespace Protocell

/-- The part of a configuration that a value gives. -/
structure Given where
  energy : Option UInt16
  steps : Option UInt32
  /-- Whether the processor is metered; it may be given without telling. -/
  processor : Option (Option Bool)

/-- The configuration with the given fields replaced, and no others. -/
def Given.onto (g : Given) (c : CellConfig) : CellConfig where
  startingEnergy := g.energy.getD c.startingEnergy
  stepsPerTick := g.steps.getD c.stepsPerTick
  processor := ⟨(g.processor.bind id).getD c.processor.metered⟩

/-- **A value gives a part of a processor's configuration.** -/
def ProcessorConfig.IsGiven (v : Json) (metered : Option Bool) : Prop :=
  ∃ fields, v.IsObject fields ∧ Json.Gives (fun v b => v = .bool b) fields "metered" metered

/-- **A value gives a part of a configuration**: it is an object whose fields, where they have the
name of a field of a configuration, give that field; no two of them have the same such name. -/
def CellConfig.IsGiven (v : Json) (g : Given) : Prop :=
  ∃ fields, v.IsObject fields ∧
    Json.Gives (fun v n => v.IsNumber n.toNat) fields "starting_energy" g.energy ∧
    Json.Gives (fun v n => v.IsNumber n.toNat) fields "steps_per_tick" g.steps ∧
    Json.Gives ProcessorConfig.IsGiven fields "processor" g.processor

/-! ## Reading -/

theorem ProcessorConfig.IsGiven.ofJson?_eq {v : Json} {metered : Option Bool}
    (h : IsGiven v metered) : ofJson? v = some ⟨metered.getD true⟩ := by
  obtain ⟨fields, ⟨hfields⟩, hmetered⟩ := h
  obtain ⟨x, hx, hread⟩ := hmetered.exists_field?
  have hbool := hread Json.bool? id true (by rintro _ b rfl; rfl)
  rw [ofJson?, Json.fields?_obj hfields, List.mapM_cons, hx]
  simp [hbool]

/-- **A value is read as the default with the given part replaced.** -/
theorem CellConfig.IsGiven.ofJson?_eq {v : Json} {g : Given} (h : IsGiven v g) :
    ofJson? v = some (g.onto {}) := by
  obtain ⟨fields, ⟨hfields⟩, henergy, hsteps, hprocessor⟩ := h
  obtain ⟨x, hx, hxread⟩ := henergy.exists_field?
  obtain ⟨y, hy, hyread⟩ := hsteps.exists_field?
  obtain ⟨z, hz, hzread⟩ := hprocessor.exists_field?
  have hx' := hxread (Json.nat? (1 <<< 16)) UInt16.toNat 4096 fun v n hv =>
    hv.nat?_eq n.toNat_lt
  have hy' := hyread (Json.nat? (1 <<< 32)) UInt32.toNat 1 fun v n hv =>
    hv.nat?_eq n.toNat_lt
  have hz' :=
    hzread ProcessorConfig.ofJson? (fun metered => ⟨metered.getD true⟩) {} fun v metered hv =>
    hv.ofJson?_eq
  rw [ofJson?, Json.fields?_obj hfields, List.mapM_cons, List.mapM_cons, List.mapM_cons, hx, hy, hz]
  simp only [List.mapM_nil, Option.pure_def, Option.bind_eq_bind, Option.bind_some, hx', hy', hz']
  refine congrArg some ?_
  rw [Given.onto, CellConfig.mk.injEq]
  refine ⟨?_, ?_, ?_⟩
  · cases g.energy with
    | none => rfl
    | some n => exact UInt16.ofNat_toNat
  · cases g.steps with
    | none => rfl
    | some n => exact UInt32.ofNat_toNat
  · rcases g.processor with _ | _ | b <;> rfl

/-- A configuration that is given whole. -/
def CellConfig.given (c : CellConfig) : Given :=
  ⟨some c.startingEnergy, some c.stepsPerTick, some (some c.processor.metered)⟩

theorem ProcessorConfig.isGiven_toJson (c : ProcessorConfig) : IsGiven c.toJson (some c.metered) :=
  ⟨_, Json.isObject_record _, .of_mem (List.nodup_singleton _) List.mem_cons_self rfl⟩

/-- **A written configuration is given whole.** -/
theorem CellConfig.isGiven_toJson (c : CellConfig) : IsGiven c.toJson c.given := by
  have hnodup : ["starting_energy", "steps_per_tick", "processor"].Nodup := by decide
  exact ⟨_, Json.isObject_record _, .of_mem hnodup (by simp) (Json.isNumber_ofNat _),
    .of_mem hnodup (by simp) (Json.isNumber_ofNat _),
    .of_mem hnodup (by simp) c.processor.isGiven_toJson⟩

theorem CellConfig.wellFormed_toJson (c : CellConfig) : c.toJson.WellFormed := by
  have hprocessor : c.processor.toJson.WellFormed := Json.wellFormed_record (by simpa using .bool _)
  refine Json.wellFormed_record ?_
  simp only [List.forall_mem_cons]
  exact ⟨Json.wellFormed_ofNat _, Json.wellFormed_ofNat _, hprocessor, nofun⟩

theorem Given.onto_given (c d : CellConfig) : c.given.onto d = c := rfl

theorem Files.readText_of_read {f : Files} {path text : String}
    (h : f.read path = .ok text.toByteArray.data.toList) : f.readText path = .ok text := by
  have htext : String.fromUTF8? ⟨text.toByteArray.data.toList.toArray⟩ = some text :=
    dif_pos text.isValidUTF8
  refine bind_eq_ok_iff.mpr ⟨_, h, ?_⟩
  rw [htext]
  rfl

/-- **Snapshots and configurations survive JSON.**  The snapshot of a machine tells its registers,
stack and banks; the stack is as long as the stack pointer says, and the banks are in increasing
order.  Every snapshot and every configuration comes back from both texts that it is written as.
Any JSON text of a value that gives a part of a configuration, with its fields in any order and
unknown ones among them, is read as the default configuration with just that part replaced; both
texts that the value is written as are such texts. -/
theorem snapshots_and_configurations_survive_json :
    (∀ m : Machine, m.snapshot.stack.length = m.sp.toNat ∧
      m.snapshot.residentBanks.Pairwise (· < ·) ∧ m.snapshot.Tells m) ∧
    (∀ s : Snapshot, ∀ text ∈ s.toJson.texts, (Json.parse? text).bind Snapshot.ofJson? = some s) ∧
    (∀ c : CellConfig, ∀ text ∈ c.toJson.texts,
      (Json.parse? text).bind CellConfig.ofJson? = some c) ∧
    (∀ v : Json, v.WellFormed → ∀ text ∈ v.texts, Json.LaysOut text v.row) ∧
    ∀ (v : Json) (g : Given) (text : String), v.WellFormed → CellConfig.IsGiven v g →
      Json.LaysOut text.toList v.row →
        (Json.parse? text.toList).bind CellConfig.ofJson? = some (g.onto {}) ∧
          ∀ (f : Files) (path : String), f.readText path = .ok text →
            Command.readConfig f (some path) = .ok (g.onto {}) := by
  have hread {v : Json} (hv : v.WellFormed) {text : List Char} (htext : text ∈ v.texts) :=
    Json.parse?_of_laysOut hv (hv.laysOut text htext)
  have hgiven {v : Json} {g : Given} {text : List Char} (hparse : Json.parse? text = some v)
      (hv : CellConfig.IsGiven v g) :
      (Json.parse? text).bind CellConfig.ofJson? = some (g.onto {}) := by
    rw [hparse, Option.bind_some, hv.ofJson?_eq]
  refine ⟨fun m => ⟨m.length_snapshot_stack, m.pairwise_residentBanks, m.tells_snapshot⟩,
    fun s text htext => ?_, fun c text htext => ?_, fun v hv => hv.laysOut,
    fun v g text hv hpart htext => ?_⟩
  · rw [hread s.wellFormed_toJson htext, Option.bind_some, s.ofJson?_toJson]
  · rw [hgiven (hread c.wellFormed_toJson htext) c.isGiven_toJson, Given.onto_given]
  · have hconfig := hgiven (Json.parse?_of_laysOut hv htext) hpart
    refine ⟨hconfig, fun f path hfile => ?_⟩
    refine bind_eq_ok_iff.mpr ⟨text, mapError_eq_ok_iff.mpr hfile, ?_⟩
    rw [hconfig]
    rfl

/-- Blanks at will, unknown fields at both levels, an escape in a key, and a processor without its
field. -/
theorem sparse_configuration_survives_json :
    ∃ f : Files, f.readText "c.json" =
        .ok "\x7b\"x\" :1e3,\n\"processor\":\x7b\"y\":0\x7d,\"st\\u0061rting_energy\": 7\x7d" ∧
      Command.readConfig f (some "c.json") = .ok { startingEnergy := 7 } := by
  obtain ⟨-, -, -, -, hread⟩ := snapshots_and_configurations_survive_json
  obtain ⟨v, hv⟩ : ∃ v : Json, v = .obj [("x".toList, .num "1e3".toList),
      ("processor".toList, .obj [("y".toList, .num "0".toList)]),
      ("st\\u0061rting_energy".toList, .num "7".toList)] := ⟨_, rfl⟩
  obtain ⟨text, htext⟩ : ∃ text : List Char, text =
      '\x7b' :: (Json.quoted "x".toList ++ ' ' :: ':' :: ("1e3".toList ++ ',' :: '\n' ::
        (Json.quoted "processor".toList ++ ':' :: '\x7b' :: (Json.quoted "y".toList ++ ':' ::
          ("0".toList ++ '\x7d' :: ',' ::
            (Json.quoted "st\\u0061rting_energy".toList ++ ':' :: ' ' ::
              ("7".toList ++ ['\x7d']))))))) := ⟨_, rfl⟩
  have hx : Json.Quotable "x".toList := Json.quotable_encodeBody "x".toList
  have hy : Json.Quotable "y".toList := Json.quotable_encodeBody "y".toList
  have hprocessor : Json.Quotable "processor".toList := Json.quotable_encodeBody "processor".toList
  have henergy : Json.Quotable "st\\u0061rting_energy".toList :=
    .plain (by decide) (by decide) (by decide) <| .plain (by decide) (by decide) (by decide) <|
      .unit rfl (Json.quotable_encodeBody "rting_energy".toList)
  have hlayout : Json.LaysOut text v.row := by
    have hnumber {literal rest : List Char} {ts : List Json.Token}
        (h : Json.isNumber literal = true)
        (hend : Json.EndsWord rest) (hrest : Json.LaysOut rest ts) :
        Json.LaysOut (literal ++ rest) (.word literal :: ts) :=
      .word (Json.ne_nil_of_isNumber h) (Json.plain_of_isNumber h) hend hrest
    rw [htext, hv]
    refine .mark rfl <| .str hx <| .blank rfl <| .mark rfl <| hnumber rfl ?_ <| .mark rfl <|
      .blank rfl <| .str hprocessor <| .mark rfl <| .mark rfl <| .str hy <| .mark rfl <|
      hnumber rfl ?_ <| .mark rfl <| .mark rfl <| .str henergy <| .mark rfl <| .blank rfl <|
      hnumber rfl ?_ <| .mark rfl .nil
    all_goals exact Json.endsWord_of_mark rfl _
  have hwell : v.WellFormed := by
    rw [hv]
    refine .obj ?_ ?_
    · simp only [List.forall_mem_cons]
      exact ⟨hx, hprocessor, henergy, nofun⟩
    · simp only [List.forall_mem_cons]
      refine ⟨.num rfl, .obj ?_ ?_, .num rfl, nofun⟩
      · exact List.forall_mem_singleton.mpr hy
      · exact List.forall_mem_singleton.mpr (.num rfl)
  have hgiven : CellConfig.IsGiven v ⟨some 7, none, some none⟩ := by
    have hnodup : ["x", "processor", "starting_energy"].Nodup := by decide
    have hmetered : ProcessorConfig.IsGiven (.obj [("y".toList, .num "0".toList)]) none :=
      ⟨[("y", _)], .obj (.cons ⟨rfl, rfl⟩ .nil), .absent (by simp)⟩
    have hseven : Json.IsNumber (.num "7".toList) 7 := Json.isNumber_ofNat 7
    rw [hv]
    exact ⟨[("x", _), ("processor", _), ("starting_energy", _)],
      .obj (.cons ⟨rfl, rfl⟩ (.cons ⟨rfl, rfl⟩ (.cons ⟨rfl, rfl⟩ .nil))),
      .of_mem hnodup (by simp) hseven, .absent (by simp), .of_mem hnodup (by simp) hmetered⟩
  have hsource : text =
      "\x7b\"x\" :1e3,\n\"processor\":\x7b\"y\":0\x7d,\"st\\u0061rting_energy\": 7\x7d".toList :=
    htext
  rw [hsource] at hlayout
  refine ⟨⟨[(["c.json"], .file (String.toByteArray _).data.toList)]⟩,
    Files.readText_of_read rfl, ?_⟩
  exact (hread v _ _ hwell hgiven hlayout).2 _ "c.json" (Files.readText_of_read rfl)

end Protocell
