import TraceCoverage.Proofs.Run.Parts
import TraceCoverage.Proofs.Session.Steps

/-!
# Sessions whose input can be read

Once every load map, listing and trace was read, nothing is left in a session that could fail: it
is the run in memory over the recordings.
-/

namespace TraceCoverage

open Pipeline SessionM

def Pipeline.tally (format : TraceFormat) (e : Executable) : List (List String) → TraceSummary
  | [] => {}
  | lines :: rest =>
    (Replay.run e (lines.filterMap format.entry?)).summary +
      tally format (e.replay format { lines }).state rest

namespace Session

/-- All that a session reads for an input, by its place among the inputs, from any of the trees that
it can meet. -/
structure Records (s : Session) (I : FileTree → Prop) (input : Input × Nat) (rec : Recording) :
    Prop where
  opened : rec.executable =
    { id := input.2
      file := input.1.executable
      library := s.config.library
      loadAddress := rec.executable.loadAddress }
  unloaded : s.config.library = none → rec.executable.loadAddress = 0
  loaded : ∀ library ∈ s.config.library, ∀ tree, I tree →
    ∃ lines, tree.openText (LoadMap.pathFor input.1.executable) = .ok { lines } ∧
      (LoadMap.ofLines lines).lookup library = some rec.executable.loadAddress
  listed : ∃ node : FileNode, node.stream = { lines := rec.listing } ∧
    Yields I (s.disassembler (s.config.library.getD input.1.executable)) node
  traced : List.Forall₂
    (fun path lines => ∀ tree, I tree → openTrace s.decoder tree path = .ok { lines })
    input.1.traces rec.traces

def replayed (s : Session) (rec : Recording) : Executable × TraceSummary :=
  (rec.traced s.target s.config.format s.registry.contains,
    tally s.config.format (rec.built s.target s.registry.contains) rec.traces)

def summary (s : Session) (rec : Recording) : ExecutableSummary where
  id := rec.executable.id
  path := rec.executable.file
  symbols := (rec.symbols s.target s.registry.contains).length
  traces := (s.replayed rec).2

section

variable {s : Session} {I : FileTree → Prop} {input : Input × Nat} {rec : Recording}

theorem Records.fresh (h : s.Records I input rec) : rec.executable.Fresh := by
  rw [h.opened]
  exact ⟨rfl, rfl, rfl⟩

/-! ## Each step of reading -/

theorem loadSymbols_ok {tree : FileTree} {path : String} {lines : List String}
    (h : tree.openText path = .ok { lines }) :
    loadSymbols tree path = .ok (.wanting (lines.filterMap Registry.nameOnLine)) := by
  unfold loadSymbols
  rw [h]
  rfl

theorem yields_start {config : Config} {programs : Programs} {decoder : Decoder} {target : Target}
    {lines : List String} (hinputs : config.inputs ≠ [])
    (htarget : Target.ofName config.target = .ok target)
    (hsymbols : ∀ tree, I tree → tree.openText config.symbols = .ok { lines }) :
    Yields I (start config programs decoder)
      { config
        target
        registry := .wanting (lines.filterMap Registry.nameOnLine)
        disassembler := chooseDisassembler config programs target
        decoder } := by
  unfold start
  rw [if_neg (by simpa using hinputs), htarget]
  refine (yields_ofExcept _).bind (yields_scratch_bind fun scratch htree => ?_)
  rw [loadSymbols_ok (hsymbols _ htree)]
  refine (yields_ofExcept _).bind ?_
  split
  next => exact (yields_warn _).bind (yields_pure _)
  next => exact yields_pure _

theorem yields_openExecutable (h : s.Records I input rec) :
    Yields I (openExecutable s.config.library input.2 input.1) rec.executable := by
  have hunloaded := h.unloaded
  have hloaded := h.loaded
  have hopened := h.opened
  cases hlibrary : s.config.library with
  | none =>
    rw [hlibrary, hunloaded hlibrary] at hopened
    rw [hopened]
    exact yields_pure _
  | some library =>
    rw [hlibrary] at hopened
    refine yields_scratch_bind fun scratch htree => ?_
    obtain ⟨lines, hlines, haddress⟩ := hloaded library hlibrary scratch.tree htree
    simp only [hlines]
    refine (yields_warn _).bind ((yields_ofExcept _).bind ?_)
    simp only [LoadMap.resolve, haddress]
    rw [hopened]
    exact yields_pure _

theorem yields_readListing (h : s.Records I input rec) :
    Yields I (s.readListing rec.executable)
      { executable := rec.built s.target s.registry.contains
        resolved := rec.symbols s.target s.registry.contains } := by
  obtain ⟨node, hnode, hlisted⟩ := h.listed
  have hread := (Listing.read_spec s.target s.registry.contains h.fresh rec.listing).1
  have hlibrary : rec.executable.library.getD rec.executable.file =
      s.config.library.getD input.1.executable := by rw [h.opened]
  unfold readListing
  rw [hlibrary]
  refine hlisted.bind ((yields_warn _).bind ?_)
  simp only [hnode, hread]
  exact yields_pure _

theorem yields_replayTraces (e : Executable) {paths : List String} {traces : List (List String)}
    (h : List.Forall₂
      (fun path lines => ∀ tree, I tree → openTrace s.decoder tree path = .ok { lines })
      paths traces) :
    Yields I (s.replayTraces e paths)
      (replayAll s.config.format e traces, tally s.config.format e traces) := by
  induction h generalizing e with
  | nil => exact yields_pure _
  | @cons path lines rest others hpath _ ih =>
    refine yields_scratch_bind fun scratch htree => ?_
    simp only [hpath _ htree]
    refine (yields_ofExcept _).bind ((yields_ofExcept _).bind ?_)
    have hrest := ih (e.replay s.config.format { lines }).state
    split
    next => exact (yields_warn _).bind (hrest.bind (yields_pure _))
    next => exact hrest.bind (yields_pure _)

end

/-! ## The run -/

theorem yields_settle {α : Type} {I : FileTree → Prop} {wrap : CoverageError → SessionError}
    {o : Outcome Registry CoverageError α} {a : α} (h : o.result = .ok a) :
    Yields I (settle wrap o) (o.state, a) := by
  unfold settle
  rw [h]
  exact (yields_warn _).bind (yields_pure _)

theorem ends_settle_bind {α β : Type} {wrap : CoverageError → SessionError}
    {o : Outcome Registry CoverageError α} {cause : CoverageError} (h : o.result = .error cause)
    (f : Registry × α → SessionM β) (w : Workspace) :
    (settle wrap o >>= f).Ends w (.error (wrap cause)) := by
  unfold settle
  rw [h]
  exact ⟨_, rfl⟩

variable {s : Session} {I : FileTree → Prop} {recs : List Recording} {w : Workspace}

theorem forall₂_zip_map {α β γ δ ε : Type} {R : α → β → Prop} {Q : γ × δ → ε → Prop} {l : List α}
    {l' : List β} {f : α → δ} {g : β → γ} {k : β → ε} (h : List.Forall₂ R l l')
    (hQ : ∀ a b, R a b → Q (g b, f a) (k b)) :
    List.Forall₂ Q ((l'.map g).zip (l.map f)) (l'.map k) := by
  induction h with
  | nil => exact .nil
  | cons hab _ ih => exact .cons (hQ _ _ hab) ih

theorem exists_of_records (h : List.Forall₂ (s.Records I) s.config.inputs.zipIdx recs) :
    ∀ rec ∈ recs, ∃ input, s.Records I input rec :=
  ((List.forall₂_and_left _ _).1 (h.flip.imp fun _ input hrec => ⟨⟨input, hrec⟩, hrec⟩)).1

theorem fresh_of_records (h : List.Forall₂ (s.Records I) s.config.inputs.zipIdx recs) :
    ∀ rec ∈ recs, rec.executable.Fresh :=
  fun rec hrec => (exists_of_records h rec hrec).elim fun _ hrec => hrec.fresh

theorem summaries_eq (hfresh : ∀ rec ∈ recs, rec.executable.Fresh) :
    ((reads s.target s.registry.contains recs).zip (recs.map s.replayed)).map
        (fun (e, _, traces) => ({
          id := e.executable.id
          path := e.executable.file
          symbols := e.resolved.length
          traces } : ExecutableSummary)) =
      recs.map s.summary := by
  rw [reads, List.zip_map', List.map_map]
  refine List.map_congr_left fun rec hrec => ?_
  have hframe := (Recording.built_spec s.target s.registry.contains (hfresh rec hrec)).frame
  have hid : (rec.built s.target s.registry.contains).id = rec.executable.id := by rw [hframe]
  have hfile : (rec.built s.target s.registry.contains).file = rec.executable.file := by
    rw [hframe]
  simp only [Function.comp_apply, summary, hid, hfile]

section

variable (h : List.Forall₂ (s.Records I) s.config.inputs.zipIdx recs)
include h

theorem yields_opened :
    Yields I
      (s.config.inputs.zipIdx.mapM fun input => openExecutable s.config.library input.2 input.1)
      (recs.map (·.executable)) := by
  refine yields_mapM ?_
  rw [List.forall₂_map_right_iff]
  exact h.imp fun input rec hrec => yields_openExecutable hrec

theorem yields_reads :
    Yields I ((recs.map (·.executable)).mapM s.readListing)
      (reads s.target s.registry.contains recs) := by
  refine yields_mapM ?_
  rw [reads, List.forall₂_map_left_iff, List.forall₂_map_right_iff, List.forall₂_same]
  exact fun rec hrec => (exists_of_records h rec hrec).elim fun _ hrec => yields_readListing hrec

theorem yields_replayed :
    Yields I
      (((reads s.target s.registry.contains recs).zip s.config.inputs).mapM fun read =>
        s.replayTraces read.1.executable read.2.traces)
      (recs.map s.replayed) := by
  have hinputs : s.config.inputs = s.config.inputs.zipIdx.map (·.1) := by simp
  rw [hinputs]
  exact yields_mapM (forall₂_zip_map h fun input rec hrec =>
    yields_replayTraces _ hrec.traced)

/-- A session is the run in memory over what it reads. -/
theorem ends_execute (hw : I w.scratch.tree) :
    s.execute.Ends w
      ((Pipeline.run s.target s.config.format s.registry recs).map fun ran =>
        { registry := ran.1, totals := ran.2, executables := recs.map s.summary }) := by
  -- The steps that only read yield what is in the recordings. Adopting and merging may fail, and then
  -- the session ends as the run does.
  unfold execute
  rw [run_eq (fresh_of_records h)]
  refine (yields_opened h).ends_bind hw fun w hw => (yields_reads h).ends_bind hw fun w hw => ?_
  dsimp only
  cases hadopted : (adoptAll s.registry (reads s.target s.registry.contains recs)).result with
  | error cause => exact ends_settle_bind hadopted _ w
  | ok _ =>
    refine (yields_settle hadopted).ends_bind hw fun w hw =>
      (yields_replayed h).ends_bind hw fun w hw => ?_
    have hmaps : (recs.map s.replayed).map (·.1) =
        traces s.target s.config.format s.registry.contains recs := by
      rw [List.map_map]
      rfl
    rw [hmaps]
    dsimp only
    generalize (adoptAll s.registry (reads s.target s.registry.contains recs)).state = adopted
    cases hmerged : (mergeAll adopted
        (traces s.target s.config.format s.registry.contains recs)).result with
    | error cause => exact ends_settle_bind hmerged _ w
    | ok _ =>
      refine (yields_settle hmerged).ends_bind hw fun w hw => ?_
      refine (yields_settle (conclude_eq _).2).ends_bind hw fun w hw => ⟨w, ?_⟩
      rw [summaries_eq (fresh_of_records h)]
      rfl

end

theorem ends_run {result : Except SessionError Report} (h : s.execute.Ends w result) :
    s.run.Ends w result := by
  obtain ⟨w', hw'⟩ := h
  refine ⟨cleanup w', ?_⟩
  unfold run
  rw [ExceptT.run_mk, StateT.run_bind, hw']
  rfl

/-- A session yields its report if all of its input can be read: no symbol of the listings, and no
trace, makes it fail. Only a symbol that spans all 2^32 addresses has a size of zero. -/
theorem report_of_readable {names : List String} (hnames : s.registry = .wanting names)
    (h : List.Forall₂ (s.Records I) s.config.inputs.zipIdx recs)
    (hsize : ∀ rec ∈ recs, ∀ p ∈ rec.symbols s.target s.registry.contains, p.size ≠ 0)
    (hw : I w.scratch.tree) :
    ∃ report, s.run.Ends w (.ok report) ∧
      Pipeline.run s.target s.config.format s.registry recs =
        .ok (report.registry, report.totals) ∧
      report.executables = recs.map s.summary := by
  have hends := ends_run (ends_execute h hw)
  rw [hnames] at hends hsize
  obtain ⟨r, totals, hrun⟩ : ∃ r totals,
      Pipeline.run s.target s.config.format (.wanting names) recs = .ok (r, totals) :=
    run_ok (fresh_of_records h) hsize
  rw [hrun] at hends
  exact ⟨_, hends, hnames ▸ hrun, rfl⟩

/-! ## Listings beside the executables -/

theorem yields_dumpFile {tree : FileTree} {extension executable : String} {lines : List String}
    (h : tree.openText (Disassembler.dumpPath extension executable) = .ok { lines }) :
    ∃ node : FileNode, node.stream = { lines } ∧
      Yields (· = tree) (Disassembler.dumpFile extension executable) node := by
  unfold FileTree.openText at h
  cases hnode : tree.find (Disassembler.dumpPath extension executable) with
  | error cause => simp [hnode, Except.map] at h
  | ok node =>
    rw [hnode] at h
    refine ⟨node, Except.ok.inj h, yields_scratch_bind ?_⟩
    rintro scratch rfl
    rw [hnode]
    exact yields_pure node

theorem records_dumpFile {tree : FileTree} {extension : String} {input : Input × Nat}
    {rec : Recording} (hdisassembler : s.disassembler = .dumpFile extension)
    (hopened : rec.executable =
      { id := input.2
        file := input.1.executable
        library := s.config.library
        loadAddress := rec.executable.loadAddress })
    (hunloaded : s.config.library = none → rec.executable.loadAddress = 0)
    (hloaded : ∀ library ∈ s.config.library,
      ∃ lines, tree.openText (LoadMap.pathFor input.1.executable) = .ok { lines } ∧
        (LoadMap.ofLines lines).lookup library = some rec.executable.loadAddress)
    (hlisted : tree.openText
      (Disassembler.dumpPath extension (s.config.library.getD input.1.executable)) =
        .ok { lines := rec.listing })
    (htraced : List.Forall₂ (fun path lines => openTrace s.decoder tree path = .ok { lines })
      input.1.traces rec.traces) :
    s.Records (· = tree) input rec where
  opened := hopened
  unloaded := hunloaded
  loaded := by
    rintro library hlibrary _ rfl
    exact hloaded library hlibrary
  listed := hdisassembler ▸ yields_dumpFile hlisted
  traced := htraced.imp fun path lines hlines => by
    rintro _ rfl
    exact hlines

def storedHeader (size : Nat) : List UInt8 :=
  [0x28, 0xB5, 0x2F, 0xFD, 0x20, UInt8.ofNat size, UInt8.ofNat (8 * size + 1), 0, 0]

/-- Decodes short frames of one block that is stored as it is, and no others. -/
def storedFrames : Decoder := fun bytes =>
  let (header, content) := bytes.toList.splitAt 9
  if content.length < 32 ∧ header = storedHeader content.length then
    { bytes := content.toByteArray }
  else { failure := some (.undecodable "not stored") }

def twiceLoaded : FileTree :=
  [("symbols.txt", "f\nabsent\n".toUTF8), ("a.exe.dlinfo", "libf.so 1000\n".toUTF8),
    ("b.exe.dlinfo", "libf.so 2000\n".toUTF8),
    ("libf.so.dis", "100 <f>:\n100:\tinc %eax\n101:\tret\n102 <g>:\n".toUTF8),
    ("a.pcs", "1100\n".toUTF8),
    ("b.pcs.zst", (storedHeader 5 ++ "2101\n".toUTF8.toList).toByteArray)].foldl
    (fun tree (path, bytes) => tree.write path bytes) {}

def twoExecutables : Config where
  target := "i386-elf"
  symbols := "symbols.txt"
  inputs := [⟨"a.exe", ["a.pcs"]⟩, ⟨"b.exe", ["b.pcs.zst"]⟩]
  format := .pcs
  library := some "libf.so"
  dumpExtension := some "dis"

def loadedAt (id : Nat) (file : String) (address : Address) (trace : List String) : Recording where
  executable := { id, file, library := some "libf.so", loadAddress := address }
  listing := ["100 <f>:", "100:\tinc %eax", "101:\tret", "102 <g>:"]
  traces := [trace]

def libraryRun : Session where
  config := twoExecutables
  target := Listing.i386
  registry := .wanting ["f", "absent"]
  disassembler := .dumpFile "dis"
  decoder := storedFrames

theorem report_of_readable_library :
    ∃ w report,
      (start twoExecutables (fun _ => none) storedFrames).run.run
          { scratch := { tree := twiceLoaded } } = (.ok libraryRun, w) ∧
        libraryRun.run.Ends w (.ok report) ∧
        Pipeline.run Listing.i386 .pcs (.wanting ["f", "absent"])
            [loadedAt 0 "a.exe" 0x1000 ["1100"], loadedAt 1 "b.exe" 0x2000 ["2101"]] =
          .ok (report.registry, report.totals) ∧
        report.executables = [⟨0, "a.exe", 1, ⟨1, 1⟩⟩, ⟨1, "b.exe", 1, ⟨1, 1⟩⟩] := by
  have hsymbols : ∀ tree, tree = twiceLoaded →
      tree.openText twoExecutables.symbols = .ok { lines := ["f", "absent"] } := by
    rintro _ rfl
    decide +kernel
  have hstarts : Yields (· = twiceLoaded) (start twoExecutables (fun _ => none) storedFrames)
      libraryRun := yields_start (by decide) rfl hsymbols
  obtain ⟨w, hstart, hw⟩ := hstarts { scratch := { tree := twiceLoaded } } rfl
  have ha : libraryRun.Records (· = twiceLoaded) (⟨"a.exe", ["a.pcs"]⟩, 0)
      (loadedAt 0 "a.exe" 0x1000 ["1100"]) := by
    refine records_dumpFile rfl rfl nofun ?_ (by decide +kernel) (.cons (by decide +kernel) .nil)
    rintro _ ⟨⟩
    exact ⟨["libf.so 1000"], by decide +kernel, by decide +kernel⟩
  have hb : libraryRun.Records (· = twiceLoaded) (⟨"b.exe", ["b.pcs.zst"]⟩, 1)
      (loadedAt 1 "b.exe" 0x2000 ["2101"]) := by
    have htrace : openTrace storedFrames twiceLoaded "b.pcs.zst" = .ok { lines := ["2101"] } := by
      decide +kernel
    refine records_dumpFile rfl rfl nofun ?_ (by decide +kernel) (.cons htrace .nil)
    rintro _ ⟨⟩
    exact ⟨["libf.so 2000"], by decide +kernel, by decide +kernel⟩
  obtain ⟨report, hends, hrun, hexecutables⟩ := report_of_readable (s := libraryRun) (w := w) rfl
    (.cons ha (.cons hb .nil)) (by decide +kernel) hw
  refine ⟨w, report, hstart, hends, hrun, hexecutables.trans ?_⟩
  decide +kernel

end Session

end TraceCoverage
