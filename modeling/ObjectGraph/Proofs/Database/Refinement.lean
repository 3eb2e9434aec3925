import ObjectGraph.Proofs.Database.Equipment
import ObjectGraph.Proofs.Schema.Construction
import ObjectGraph.Proofs.Session.Calls
/-!
A session that has no other writer beside it is a machine of two object graphs, the committed one and
its own: every answer that it gives, and all that it shows and publishes, are the machine's.
-/

namespace ObjectGraph

open Dictionary (Ascending)

namespace Graph

def ofEntries (d : List Entry) : Graph where
  types a := (recorded d (.object a)).bind Id.ofBytes?
  values a f := recorded d (.field a f)
  edges := (d.filterMap fun e =>
    match Key.ofBytes? e.1 with
    | some (.association h) => some h.edge
    | _ => none).toFinset

variable {schema : Schema} {d : List Entry}

theorem mem_edges_ofEntries (hd : Ascending KeyOrder.lexicographic d)
    (hg : Integrity schema (recorded d)) {h : Half} :
    h.edge ∈ (ofEntries d).edges ↔ (recorded d (.association h)).isSome := by
  rw [ofEntries, List.mem_toFinset, List.mem_filterMap]
  constructor
  · rintro ⟨e, he, hedge⟩
    split at hedge
    next h' hread =>
      have hpresent : (recorded d (.association h')).isSome :=
        (isSome_recorded_iff hd).mpr ⟨e, he, Key.bytes_eq_of_ofBytes? hread⟩
      rcases Half.edge_eq_iff.mp (Option.some.inj hedge).symm with rfl | rfl
      · exact hpresent
      · rwa [← hg.mirrored]
    · contradiction
  · intro hpresent
    obtain ⟨e, he, hkey⟩ := (isSome_recorded_iff hd).mp hpresent
    exact ⟨e, he, by rw [hkey, Key.ofBytes?_bytes]⟩

theorem records_ofEntries (hd : Ascending KeyOrder.lexicographic d)
    (hg : Integrity schema (recorded d)) : (ofEntries d).records = recorded d := by
  funext k
  cases k with
  | object a =>
    cases hv : recorded d (.object a) with
    | none => simp [records, ofEntries, hv]
    | some v =>
      obtain ⟨t, rfl, -⟩ := hg.object a v hv
      simp [records, ofEntries, hv, Id.ofBytes?_bytes]
  | field a f => rfl
  | association h =>
    rw [records]
    split
    next hmem =>
      obtain ⟨v, hv⟩ := Option.isSome_iff_exists.mp ((mem_edges_ofEntries hd hg).mp hmem)
      rw [hv, (hg.half h v hv).1]
    next hmem =>
      rw [mem_edges_ofEntries hd hg, Option.not_isSome_iff_eq_none] at hmem
      rw [hmem]

end Graph

theorem Session.Shows.ofEntries_eq {c : Catalog} {base : Table} {G : Graph} {s : Session}
    (h : s.Shows c base G.records) (hg : Integrity c.schema G.records) :
    Graph.ofEntries s.workspace.entries = G := by
  apply Graph.records_injective
  rw [h.valid.entries_eq, Graph.records_ofEntries h.valid.ascending_view (h.records_eq ▸ hg),
    h.records_eq]

inductive Request where
  | call (call : Call)
  | rollback
  | commit (stamp : Stamp)

def Request.run : Request → Working Answer
  | call c => Working.edit c.perform
  | rollback => Working.edit ((fun _ => .done) <$> modify Session.rollback)
  | commit stamp => (fun _ => .done) <$> Working.commit stamp

def Request.answer (request : Request) : StateM Work (Except Error Answer) := request.run.run

structure Machine where
  committed : Graph
  current : Graph

namespace Machine

def ofWork (w : Work) : Machine where
  committed := Graph.ofEntries w.database.objects
  current := Graph.ofEntries w.session.workspace.entries

noncomputable def answer (schema : Schema) (request : Request) :
    StateM Machine (Except Error Answer) := fun M =>
  match request with
  | .call c =>
    match M.current.call schema c with
    | .ok (answer, G) => (.ok answer, { M with current := G })
    | .error e => (.error e, M)
  | .rollback => (.ok .done, { M with current := M.committed })
  | .commit _ => (.ok .done, { M with committed := M.current })

end Machine

namespace Request

variable {w : Work}

theorem answer_call (c : Call) :
    (call c).answer w = ((c.perform.run w.session).1, { w with session := (c.perform.run w.session).2 }) :=
  rfl

theorem answer_commit (stamp : Stamp) :
    (commit stamp).answer w = (((Working.commit stamp).run w).1.map fun _ => .done,
      ((Working.commit stamp).run w).2) := Stateful.run_map _ _ _

theorem answer_cases (request : Request) :
    (∀ w, (request.answer w).2 = w) ∨ ∃ call : WriterCall, ∀ w,
      call.run.run w = ((request.answer w).1.map fun _ => ⟨⟩, (request.answer w).2) := by
  cases request with
  | call c =>
    rcases c.perform_cases with hquestion | ⟨edit, hedit⟩
    · refine .inl fun w => ?_
      rw [answer_call, hquestion]
    · refine .inr ⟨.edit edit, fun w => ?_⟩
      rw [WriterCall.run, Working.edit_run, hedit, answer_call]
  | rollback => exact .inr ⟨.edit .rollback, fun w => rfl⟩
  | commit stamp =>
    refine .inr ⟨.commit stamp, fun w => ?_⟩
    have hdiscard : (discard (Working.commit stamp)).run w =
      (((Working.commit stamp).run w).1.map fun _ => ⟨⟩, ((Working.commit stamp).run w).2) :=
      Stateful.run_map _ _ _
    rw [WriterCall.run, hdiscard, answer_commit]
    cases ((Working.commit stamp).run w).1 <;> rfl

end Request

variable {schema : Schema} {db : Database} {s : Session} {w : Work} {request : Request}
  {answer : Except Error Answer}

theorem SingleWriter.answered (h : SingleWriter schema db (some s))
    (hrun : request.answer ⟨db, s⟩ = (answer, w)) (hroom : ∀ e, answer = .error e → ¬ e.IsShortage) :
    SingleWriter schema w.database (some w.session) := by
  obtain rfl : (request.answer ⟨db, s⟩).1 = answer := congrArg Prod.fst hrun
  obtain rfl : (request.answer ⟨db, s⟩).2 = w := congrArg Prod.snd hrun
  rcases request.answer_cases with hquestion | ⟨call, hcall⟩
  · rwa [hquestion]
  · refine h.called call (hcall _) fun e he hexhaustion => ?_
    cases hanswer : (request.answer ⟨db, s⟩).1 with
    | ok a =>
      rw [hanswer] at he
      contradiction
    | error e' =>
      rw [hanswer] at he
      cases he
      exact hroom e hanswer hexhaustion.isShortage

theorem SingleWriter.integrity (h : SingleWriter schema db (some s)) {c : Catalog} {base : Table}
    {g : Records} (hs : s.Shows c base g) : Integrity schema g := by
  obtain ⟨base', hdb, hsession⟩ := h.sound
  obtain ⟨g', hs', hg⟩ := hsession s rfl
  rw [← hs.records_eq, hs'.records_eq, ← hdb.schema_eq]
  exact hg

theorem SingleWriter.ofWork_eq (h : SingleWriter schema db (some s)) {base : Table} {M : Machine}
    (hdb : db.Holds schema base) (hcommitted : M.committed.records = recorded base.entries)
    (hs : s.Shows db.catalog base M.current.records) : Machine.ofWork ⟨db, s⟩ = M := by
  have hcurrent : Graph.ofEntries s.workspace.entries = M.current :=
    hs.ofEntries_eq (hdb.schema_eq ▸ h.integrity hs)
  have hbase : Graph.ofEntries db.objects = M.committed := by
    apply Graph.records_injective
    rw [Database.objects_eq hdb.committed, hcommitted]
    exact Graph.records_ofEntries (hdb.valid.order_eq ▸ hdb.valid.ascending) hdb.fits.integrity
  rw [Machine.ofWork, hbase, hcurrent]

theorem SingleWriter.shows (h : SingleWriter schema db (some s)) :
    ∃ base, db.Holds schema base ∧
      (Machine.ofWork ⟨db, s⟩).committed.records = recorded base.entries ∧
      s.Shows db.catalog base (Machine.ofWork ⟨db, s⟩).current.records := by
  obtain ⟨base, hdb, hsession⟩ := h.sound
  obtain ⟨g, hs, -⟩ := hsession s rfl
  refine ⟨base, hdb, ?_, ?_⟩
  · rw [Machine.ofWork, Database.objects_eq hdb.committed]
    exact Graph.records_ofEntries hdb.valid.ascending hdb.fits.integrity
  · rw [Machine.ofWork, hs.valid.entries_eq, Graph.records_ofEntries hs.valid.ascending_view
      (hs.records_eq ▸ h.integrity hs), hs.records_eq]
    exact hs

theorem SingleWriter.shortage_of_commit (h : SingleWriter schema db (some s)) {id : CommitId}
    {e : Error} {x : WriteTxn} {recorders : Recorders} (hwritable : s.writable = true)
    (hrun : (s.publish id).run (db.store.beginWrite, s.recorders) = (.error e, x, recorders)) :
    e.IsShortage := by
  obtain ⟨config, hinterleaved⟩ := h.interleaved
  obtain ⟨hdb, hsessions⟩ := hinterleaved.equipped
  obtain ⟨table, htable, hvalid, hadmitted⟩ := hdb.orderly.objects
  have htells := @Working.publish_tells schema config ⟨db, s⟩ hdb (hsessions s (by simp)) hwritable id
    table htable hvalid hadmitted
  exact (htells.error rfl hrun).1

theorem SingleWriter.ofWork_of_commits (h : SingleWriter schema db (some s)) {stamp : Stamp}
    {result : Except Error (Option CommitId)} (hcommits : Working.Commits stamp ⟨db, s⟩ result w)
    (h' : SingleWriter schema w.database (some w.session))
    (hroom : ∀ e, result = .error e → ¬ e.IsShortage) :
    (∃ id, result = .ok id) ∧ Machine.ofWork w =
      ⟨(Machine.ofWork ⟨db, s⟩).current, (Machine.ofWork ⟨db, s⟩).current⟩ := by
  obtain ⟨base, hdb, -, hs⟩ := h.shows
  have hg := h.integrity hs
  generalize Machine.ofWork ⟨db, s⟩ = M at hs hg ⊢
  cases hcommits with
  | readOnly hreadOnly =>
    rw [hs.writable] at hreadOnly
    contradiction
  | clean hclean =>
    have hview : s.workspace.view = base.entries := by
      rw [Workspace.view_of_entries_eq_nil (hs.valid.pending_eq_zero_iff.mp (not_not.mp hclean)),
        hs.base_eq]
    have hcommitted : M.current.records = recorded base.entries := by rw [← hview, hs.records_eq]
    exact ⟨⟨none, rfl⟩, @ofWork_eq _ _ _ h base ⟨_, _⟩ hdb hcommitted hs⟩
  | failed _ hrun => exact absurd (h.shortage_of_commit hs.writable hrun) (hroom _ rfl)
  | published _ _ _ hpublish =>
    obtain ⟨hdb', hs'⟩ := Working.shows_of_publish hdb hs hg hpublish
    exact ⟨⟨_, rfl⟩, @ofWork_eq _ _ _ h' _ ⟨_, _⟩ hdb' hs.records_eq.symm hs'⟩

theorem SingleWriter.answer_eq (hschema : schema.Built) (h : SingleWriter schema db (some s))
    (hrun : request.answer ⟨db, s⟩ = (answer, w)) (hroom : ∀ e, answer = .error e → ¬ e.IsShortage) :
    Machine.answer schema request (Machine.ofWork ⟨db, s⟩) = (answer, Machine.ofWork w) := by
  have h' := h.answered hrun hroom
  obtain ⟨base, hdb, hcommitted, hs⟩ := h.shows
  have hg := h.integrity hs
  cases request with
  | call c =>
    obtain rfl := hdb.schema_eq
    have hsim := Editing.simulates_perform hg hschema.type?_nil c s hs
    rw [Request.answer_call] at hrun
    rcases hstep : c.perform.run s with ⟨e | a, t⟩
    · rw [hstep] at hsim hrun
      cases hrun
      obtain ⟨houtcome, ht⟩ := hsim.resolve_left fun he => hroom e rfl he.isShortage
      rw [h'.ofWork_eq hdb hcommitted ht, Machine.answer, houtcome]
    · rw [hstep] at hsim hrun
      cases hrun
      obtain ⟨G', houtcome, ht⟩ := hsim
      rw [@ofWork_eq _ _ _ h' base ⟨_, G'⟩ hdb hcommitted ht, Machine.answer, houtcome]
  | rollback =>
    cases hrun
    have hback := hs.rollback hdb.fits.keyed
    rw [← hcommitted] at hback
    generalize Machine.ofWork ⟨db, s⟩ = M at hcommitted hback ⊢
    exact congrArg _ (@ofWork_eq _ _ _ h' base ⟨M.committed, M.committed⟩ hdb hcommitted hback).symm
  | commit stamp =>
    rw [Request.answer_commit] at hrun
    rcases hcommit : (Working.commit stamp).run ⟨db, s⟩ with ⟨result, w'⟩
    rw [hcommit] at hrun
    cases hrun
    have hcommits := Working.commits_of_run hcommit
    have hends := h.ofWork_of_commits hcommits h' fun e he => hroom e (he ▸ rfl)
    obtain ⟨⟨id, rfl⟩, hw⟩ := hends
    exact congrArg _ hw.symm

/-- Every answer of a session, and what it shows and publishes after all of them, are those of the
machine. -/
theorem SingleWriter.refines (hschema : schema.Built) (h : SingleWriter schema db (some s))
    {requests : List Request} {answers : List (Except Error Answer)}
    (hrun : (requests.mapM Request.answer).run ⟨db, s⟩ = (answers, w))
    (hroom : ∀ e, .error e ∈ answers → ¬ e.IsShortage) :
    (requests.mapM (Machine.answer schema)).run (Machine.ofWork ⟨db, s⟩) =
      (answers, Machine.ofWork w) := by
  induction requests generalizing db s answers with
  | nil =>
    cases hrun
    rfl
  | cons request requests ih =>
    rcases hfirst : request.answer ⟨db, s⟩ with ⟨answer, w'⟩
    rcases hrest : (requests.mapM Request.answer).run w' with ⟨answers', w''⟩
    simp only [Stateful.run_mapM_cons, hfirst, hrest] at hrun
    cases hrun
    have hroom' : ∀ e, answer = .error e → ¬ e.IsShortage :=
      fun e he => hroom e (List.mem_cons.mpr (.inl he.symm))
    have hstep := h.answer_eq hschema hfirst hroom'
    have hsteps := ih (h.answered hfirst hroom') hrest fun e he => hroom e (List.mem_cons_of_mem _ he)
    simp only [Stateful.run_mapM_cons, hstep, hsteps]

def Schema.rankedPeers : Schema :=
  peers.withField
    { id := Id.ofNat 0x1002, name := "rank", owner := Id.ofNat 0x1000, type := .enum }

theorem Schema.built_rankedPeers : rankedPeers.Built :=
  ((Built.builtin.withType rfl).withField rfl rfl (by decide)).withField rfl rfl (by decide)

def Request.parting : List Request :=
  let a := Id.ofNat 1
  let b := Id.ofNat 2
  let node := Id.ofNat 0x1000
  let peer := Id.ofNat 0x1001
  let rank := Id.ofNat 0x1002
  [.call (.create node a), .call (.create node a), .call (.create node b),
    .call (.setValue a rank (Value.enum 5).encode), .call (.link ⟨a, peer, b, peer⟩), .commit ⟨0, 0⟩,
    .call (.link ⟨b, peer, b, peer⟩), .call (.partners a peer), .rollback, .call (.partners a peer),
    .call (.delete b), .call (.count a peer), .call (.objects node), .call (.value a rank)]

def Answer.parting : List (Except Error Answer) :=
  let a := Id.ofNat 1
  [.ok (.object a), .error (.objectExists a), .ok (.object (Id.ofNat 2)), .ok .done, .ok .done, .ok .done,
    .ok .done, .ok (.objects []), .ok .done, .ok (.objects [Id.ofNat 2]), .ok (.verdict true),
    .ok (.count 0), .ok (.objects [a]), .ok (.value (Value.enum 5).encode)]

theorem SingleWriter.refines_parting :
    ∃ db s w, SingleWriter Schema.rankedPeers db (some s) ∧
      (Request.parting.mapM Request.answer).run ⟨db, s⟩ = (Answer.parting, w) ∧
      (Request.parting.mapM (Machine.answer Schema.rankedPeers)).run (Machine.ofWork ⟨db, s⟩) =
        (Answer.parting, Machine.ofWork w) := by
  have hscript : ((WriterCall.script Schema.rankedPeers 10000 []).toOption.map fun w =>
      ((Request.parting.mapM Request.answer).run w).1) = some Answer.parting := by decide +kernel
  obtain ⟨w, hw, hanswers⟩ := Option.map_eq_some_iff.mp hscript
  have hwriter := SingleWriter.of_script (Stateful.ok_of_toOption hw)
  rcases hanswered : (Request.parting.mapM Request.answer).run w with ⟨answers, w'⟩
  rw [hanswered] at hanswers
  obtain rfl : answers = Answer.parting := hanswers
  have hroom : ∀ e, .error e ∈ Answer.parting → ¬ e.IsShortage := by
    intro e he
    obtain rfl : e = .objectExists (Id.ofNat 1) := by simpa [Answer.parting] using he
    exact id
  exact ⟨_, _, _, hwriter, hanswered, hwriter.refines Schema.built_rankedPeers hanswered hroom⟩

end ObjectGraph
