import Workforce.Origins
import Workforce.Replies
import Workforce.Sorting

/-!
The payload of the consolidate phase.

When the children of a job have ended, the job is dispatched again with a JSON object that holds
its payload and the results of the children. A payload that looks like such an object itself is
taken for an earlier one and unwrapped, although no stored payload ever is one: payloads stay as
they were submitted.
-/

namespace Workforce.ConsolidatePayloads

open Json Payloads Replies Sorting Tables Progs Shared Calls Handlers Runs Fresh Operations Origins
open Contract hiding Bytes

/-! ### The records -/

structure ChildJobResult (α : Type) where
  JobID : String
  TaskName : String
  Result : α

/-- The object, with payloads of type `α`: the manager's own, or the JSON as it stands. -/
structure ConsolidatePayload (α : Type) where
  Payload : α
  Children : List (ChildJobResult α)

section Decode

variable {α : Type} (decode : Decoder α) (zero : α)

def decodeChildJobResult (v : Value) : Option (ChildJobResult α) := do
  let ms ← members v
  let jobID ← field "job_id" decodeString "" ms
  let taskName ← field "task_name" decodeString "" ms
  let result ← field "result" decode zero ms
  return ⟨jobID, taskName, result⟩

def decodeConsolidatePayload (v : Value) : Option (ConsolidatePayload α) := do
  let ms ← members v
  let payload ← field "payload" decode zero ms
  let children ←
    field "children" (fun _ => decodeSlice (decodeChildJobResult decode zero)) [] ms
  return ⟨payload, children⟩

end Decode

/-! ### Building the payload -/

/-- `json.Unmarshal` of a payload that may be an earlier consolidate payload. -/
def unmarshalPrevious (bs : Bytes) : Option (ConsolidatePayload JsonOrBytes) :=
  (parse maxNestingDepth bs).bind (decodeConsolidatePayload decodePayload none)

/-- The payload to carry: the one inside, if this is an earlier consolidate payload. -/
def basePayload (p : JsonOrBytes) : JsonOrBytes :=
  match p with
  | none => none
  | some bs =>
    if bs ≠ [] then
      match unmarshalPrevious bs with
      | some previous => if previous.Payload ≠ none then previous.Payload else p
      | none => p
    else p

def encodeChildJobResult (c : Job) (result : Value) : Value :=
  .obj [member "job_id" (encodeString c.ID), member "task_name" (encodeString c.TaskName),
    member "result" result]

def encodeConsolidatePayload (payload : Value) (children : List Value) : Value :=
  .obj [member "payload" payload, member "children" (.arr children)]

def buildConsolidatePayload (slice : Sorter Job.CreatedAt) (parent : Job) (children : List Job) :
    Option JsonOrBytes := do
  let sorted := slice.sort children
  let childResults ← sorted.mapM fun c =>
    (embed (MarshalJSON c.Result)).map (encodeChildJobResult c)
  let payload ← embed (MarshalJSON (basePayload parent.Payload))
  return some (render (encodeConsolidatePayload payload childResults))

/-! ### What it should carry -/

def decodeRaw : Decoder Value := fun _ v => some v

structure SameChild (c : Job) (r : ChildJobResult Value) : Prop where
  JobID : r.JobID = c.ID
  TaskName : r.TaskName = c.TaskName
  Result : meaning r.Result = meaning (jsonForm c.Result)

/-- The payload decodes to an object with the payload `p` and one entry for each child, in the
order the children were created in. -/
def Carries (p : JsonOrBytes) (created : List Job) (out : JsonOrBytes) : Prop :=
  ∃ bs doc record, out = some bs ∧ parse maxNestingDepth bs = some doc ∧
    decodeConsolidatePayload decodeRaw .null doc = some record ∧
    meaning record.Payload = meaning (jsonForm p) ∧
    List.Forall₂ SameChild created record.Children

/-- The payload has the shape of an earlier consolidate payload. -/
def LooksConsolidated (p : JsonOrBytes) : Prop :=
  ∃ bs previous inner, p = some bs ∧ unmarshalPrevious bs = some previous ∧
    previous.Payload = some inner

/-- The payload is not taken for an earlier one, nothing is nested too deep for its place, and
the times of creation follow the order of creation. -/
structure Intact (p : JsonOrBytes) (created : List Job) : Prop where
  plain : ¬LooksConsolidated p
  room : depth (jsonForm p) + 1 ≤ maxNestingDepth
  results : ∀ c ∈ created, depth (jsonForm c.Result) + 3 ≤ maxNestingDepth
  times : created.Pairwise fun a b => a.CreatedAt < b.CreatedAt

/-! ### The document -/

def document (p : JsonOrBytes) (sorted : List Job) : Value :=
  encodeConsolidatePayload (payloadValue p)
    (sorted.map fun c => encodeChildJobResult c (payloadValue c.Result))

lemma buildConsolidatePayload_eq (slice : Sorter Job.CreatedAt) (parent : Job)
    (children : List Job) : buildConsolidatePayload slice parent children =
      some (some (render (document (basePayload parent.Payload) (slice.sort children)))) := by
  have hresults : ((slice.sort children).mapM fun c =>
      (embed (MarshalJSON c.Result)).map (encodeChildJobResult c)) =
      some ((slice.sort children).map fun c =>
        encodeChildJobResult c (payloadValue c.Result)) := by
    rw [mapM_eq_some, List.forall₂_map_right_iff, List.forall₂_same]
    intro c _
    rw [embed_MarshalJSON]
    rfl
  rw [buildConsolidatePayload, hresults, embed_MarshalJSON]
  rfl

lemma decode_document (p : JsonOrBytes) (sorted : List Job) :
    decodeConsolidatePayload decodeRaw .null (document p sorted) =
      some ⟨payloadValue p, sorted.map fun c => ⟨c.ID, c.TaskName, payloadValue c.Result⟩⟩ := by
  have hchild (c : Job) (v : Value) :
      decodeChildJobResult decodeRaw .null (encodeChildJobResult c v) =
        some ⟨c.ID, c.TaskName, v⟩ := by
    simp +decide [decodeChildJobResult, encodeChildJobResult, members, field_member, decodeRaw]
  have hchildren : (sorted.map fun c => encodeChildJobResult c (payloadValue c.Result)).mapM
      (decodeChildJobResult decodeRaw .null) =
      some (sorted.map fun c => ⟨c.ID, c.TaskName, payloadValue c.Result⟩) := by
    rw [mapM_eq_some, List.forall₂_map_left_iff, List.forall₂_map_right_iff, List.forall₂_same]
    exact fun c _ => hchild c _
  simp +decide [decodeConsolidatePayload, document, encodeConsolidatePayload, members,
    field_member, decodeRaw, decodeSlice, hchildren]

lemma wellFormed_document (p : JsonOrBytes) (sorted : List Job) :
    WellFormed (maxNestingDepth + 3) (document p sorted) := by
  refine wellFormed_members (d := maxNestingDepth + 2) [("payload", _), ("children", _)] ?_
  simp only [List.forall_mem_cons, List.not_mem_nil, false_implies, implies_true, and_true]
  refine ⟨(wellFormed_payloadValue p).mono (by omega), .arr fun v hv => ?_⟩
  obtain ⟨c, -, rfl⟩ := List.mem_map.mp hv
  refine wellFormed_members (d := maxNestingDepth)
    [("job_id", _), ("task_name", _), ("result", _)] ?_
  simp only [List.forall_mem_cons, List.not_mem_nil, false_implies, implies_true, and_true]
  exact ⟨wellFormed_encodeString _, wellFormed_encodeString _, wellFormed_payloadValue c.Result⟩

lemma depth_document (p : JsonOrBytes) (sorted : List Job) :
    depth (document p sorted) ≤ maxNestingDepth ↔ depth (jsonForm p) + 1 ≤ maxNestingDepth ∧
      ∀ c ∈ sorted, depth (jsonForm c.Result) + 3 ≤ maxNestingDepth := by
  have hchild (c : Job) : depth (encodeChildJobResult c (payloadValue c.Result)) =
      depth (jsonForm c.Result) + 1 := by
    simp [encodeChildJobResult, member, depth, depthMembers, encodeString, depth_payloadValue]
  have helems : depthElems (sorted.map fun c =>
      encodeChildJobResult c (payloadValue c.Result)) + 2 ≤ maxNestingDepth ↔
      ∀ c ∈ sorted, depth (jsonForm c.Result) + 3 ≤ maxNestingDepth := by
    constructor
    · intro h c hc
      have hmem := depth_le_depthElems (List.mem_map_of_mem
        (f := fun c => encodeChildJobResult c (payloadValue c.Result)) hc)
      rw [hchild] at hmem
      omega
    · intro h
      have hle : depthElems (sorted.map fun c =>
          encodeChildJobResult c (payloadValue c.Result)) ≤ maxNestingDepth - 2 := by
        refine depthElems_le fun v hv => ?_
        obtain ⟨c, hc, rfl⟩ := List.mem_map.mp hv
        have := h c hc
        rw [hchild]
        omega
      have hbig : 2 ≤ maxNestingDepth := by decide
      omega
  rw [← helems]
  simp only [document, encodeConsolidatePayload, member, depth, depthMembers, depth_payloadValue]
  omega

def entry (c : Job) : ChildJobResult Value := ⟨c.ID, c.TaskName, payloadValue c.Result⟩

lemma meaning_payloadValue (p : JsonOrBytes) : meaning (payloadValue p) = meaning (jsonForm p) :=
  meaning_escapeHTML (wellFormed_jsonForm p)

lemma carries_document {p q : JsonOrBytes} {created sorted : List Job} :
    Carries q created (some (render (document p sorted))) ↔
      depth (document p sorted) ≤ maxNestingDepth ∧
        meaning (jsonForm p) = meaning (jsonForm q) ∧
        List.Forall₂ (fun c c' => SameChild c (entry c')) created sorted := by
  constructor
  · rintro ⟨bs, doc, record, hbs, hparse, hdecode, hpayload, hsame⟩
    cases hbs
    rw [parse_render_eq (wellFormed_document p sorted)] at hparse
    split_ifs at hparse with hroom
    cases hparse
    rw [decode_document] at hdecode
    cases hdecode
    exact ⟨hroom, (meaning_payloadValue p).symm.trans hpayload,
      List.forall₂_map_right_iff.mp hsame⟩
  · rintro ⟨hroom, hpayload, hsame⟩
    refine ⟨_, _, _, rfl, ?_, decode_document p sorted, (meaning_payloadValue p).trans hpayload,
      List.forall₂_map_right_iff.mpr hsame⟩
    rw [parse_render_eq (wellFormed_document p sorted), if_pos hroom]

/-! ### The order of the children -/

lemma eq_of_sameChildren {created sorted : List Job} (hperm : sorted.Perm created)
    (hids : (created.map Job.ID).Nodup)
    (h : List.Forall₂ (fun c c' => SameChild c (entry c')) created sorted) : sorted = created := by
  obtain ⟨hlen, hget⟩ := List.forall₂_iff_get.mp h
  refine List.ext_getElem hlen.symm fun i hi hi' => ?_
  have hsame := (hget i hi' hi).JobID
  exact List.inj_on_of_nodup_map hids (hperm.subset (List.getElem_mem hi)) (List.getElem_mem hi')
    hsame

lemma sameChildren_self (created : List Job) :
    List.Forall₂ (fun c c' => SameChild c (entry c')) created created :=
  List.forall₂_same.mpr fun c _ => ⟨rfl, rfl, meaning_payloadValue c.Result⟩

/-! ### Payloads that look like consolidate payloads -/

lemma basePayload_of_not {p : JsonOrBytes} (h : ¬LooksConsolidated p) : basePayload p = p := by
  cases p with
  | none => rfl
  | some bs =>
    rw [basePayload]
    split_ifs with hbs
    · rcases hprev : unmarshalPrevious bs with _ | previous
      · rfl
      · rcases hpayload : previous.Payload with _ | inner
        · simp [hpayload]
        · exact absurd ⟨bs, previous, inner, rfl, hprev, hpayload⟩ h
    · rfl

/-- A field without a memory: the last member with its name decides. -/
lemma mem_of_field {α : Type} {name : String} {f : Value → Option α} {zero a : α}
    {ms : List (Bytes × Value)} (h : field name (fun _ => f) zero ms = some a) :
    a = zero ∨ ∃ m ∈ ms, Matches name m.1 ∧ f m.2 = some a := by
  rw [field] at h
  have hmem : ∀ m ∈ ms.filter fun m => Matches name m.1, m ∈ ms ∧ Matches name m.1 := by
    intro m hm
    simpa using List.mem_filter.mp hm
  generalize ms.filter (fun m => Matches name m.1) = found at h hmem
  induction found generalizing zero with
  | nil => exact .inl (Option.some.inj h).symm
  | cons m found ih =>
    obtain ⟨hm, hrest⟩ := List.forall_mem_cons.mp hmem
    obtain ⟨b, hb, h⟩ := Option.bind_eq_some_iff.mp h
    rcases ih h hrest with rfl | hfound
    · exact .inr ⟨m, hm.1, hm.2, hb⟩
    · exact .inr hfound

/-- Such a payload is an object with the payload inside it. -/
lemma exists_member {bs : Bytes} {previous : ConsolidatePayload JsonOrBytes} {inner : Bytes}
    (h : unmarshalPrevious bs = some previous) (hinner : previous.Payload = some inner) :
    ∃ ms m, parse maxNestingDepth bs = some (.obj ms) ∧ m ∈ ms ∧ Matches "payload" m.1 ∧
      UnmarshalJSON (render m.2) = some (some inner) := by
  obtain ⟨v, hv, h⟩ := Option.bind_eq_some_iff.mp h
  obtain ⟨ms, hms, h⟩ := Option.bind_eq_some_iff.mp h
  obtain ⟨payload, hpayload, h⟩ := Option.bind_eq_some_iff.mp h
  obtain ⟨children, -, h⟩ := Option.bind_eq_some_iff.mp h
  cases h
  subst hinner
  rcases mem_of_field hpayload with hzero | ⟨m, hm, hname, hdecode⟩
  · cases hzero
  · cases v with
    | obj ms' =>
      cases hms
      exact ⟨_, m, hv, hm, hname, hdecode⟩
    | null =>
      cases hms
      cases hm
    | bool | num | str | arr => cases hms

lemma length_symbols_of_matches {name : String} {key : Bytes} (h : Matches name key) :
    (symbols key).length = name.toList.length := by
  have hlen := congrArg List.length h
  simpa [unquote] using hlen

/-- What is unwrapped is no longer what it was taken from: its strings are shorter. -/
lemma meaning_inner_ne {ms : List (Bytes × Value)} {m : Bytes × Value} {inner : Bytes}
    (hwf : WellFormed maxNestingDepth (.obj ms)) (hm : m ∈ ms) (hname : Matches "payload" m.1)
    (hdecode : UnmarshalJSON (render m.2) = some (some inner)) :
    meaning (jsonForm (some inner)) ≠ meaning (.obj ms) := by
  have hkey : (symbols m.1).length = 7 := length_symbols_of_matches hname
  have hmember := size_member_le hm
  have hvalue : WellFormed maxNestingDepth m.2 := by
    cases hwf with
    | obj hk h => exact (h m hm).mono (Nat.le_succ _)
  rw [jsonForm]
  rcases hparse : parse maxNestingDepth inner with _ | u
  · intro h
    cases h
  intro heq
  have hsize : (meaning u).size = (meaning (.obj ms)).size := congrArg Meaning.size heq
  by_cases hstr : ∃ raw, m.2 = .str raw
  · -- the text in base64 is longer than the bytes it stands for
    obtain ⟨raw, hraw⟩ := hstr
    have hok : StrOk raw := (hraw ▸ hvalue).strOk
    rw [hraw, UnmarshalJSON_str hok] at hdecode
    obtain ⟨b, hb, hinner⟩ := Option.map_eq_some_iff.mp hdecode
    cases hinner
    have hraw' : (meaning m.2).size = (unquote raw).length := by
      rw [hraw, meaning, Meaning.size, unquote, List.length_map]
    have hlong : (meaning u).size ≤ (unquote raw).length + 1 := calc
      (meaning u).size ≤ (render u).length := size_meaning_le (wellFormed_of_parse hparse)
      _ ≤ inner.length + 1 := length_render_le hparse
      _ ≤ (unquote raw).length + 1 := Nat.succ_le_succ (Base64.length_decode hb)
    omega
  · rw [UnmarshalJSON_other hvalue fun raw h => hstr ⟨raw, h⟩] at hdecode
    cases hdecode
    rw [parse_render hvalue] at hparse
    cases hparse
    omega

/-- A payload that looks like an earlier consolidate payload is not carried. -/
lemma meaning_basePayload_ne {p : JsonOrBytes} (h : LooksConsolidated p) :
    meaning (jsonForm (basePayload p)) ≠ meaning (jsonForm p) := by
  obtain ⟨bs, previous, inner, rfl, hprev, hinner⟩ := h
  obtain ⟨ms, m, hparse, hm, hname, hdecode⟩ := exists_member hprev hinner
  have hbs : bs ≠ [] := by
    rintro rfl
    cases hparse
  have hbase : basePayload (some bs) = some inner := by
    simp [basePayload, hbs, hprev, hinner]
  rw [hbase, jsonForm_json hparse]
  exact meaning_inner_ne (wellFormed_of_parse hparse) hm hname hdecode

/-! ### The function -/

section Function

variable {parent : Job} {created : List Job}

/-- **One call.** For children with different identifiers, all the lists they can be given in
and all ways to sort them, the function carries the payload and the children exactly when they
are intact. -/
theorem buildConsolidatePayload_iff (hids : (created.map Job.ID).Nodup) :
    (∀ slice children, children.Perm created → Sorted Job.CreatedAt children →
      ∃ out, buildConsolidatePayload slice parent children = some out ∧
        Carries parent.Payload created out) ↔ Intact parent.Payload created := by
  have hnodup : created.Nodup := hids.of_map
  constructor
  · intro h
    have hsorted : ∀ l, l.Perm created → Sorted Job.CreatedAt l → l = created ∧
        depth (document (basePayload parent.Payload) l) ≤ maxNestingDepth ∧
        meaning (jsonForm (basePayload parent.Payload)) = meaning (jsonForm parent.Payload) := by
      intro l hperm hl
      obtain ⟨out, hout, hcarries⟩ := h (keeping hl) l hperm hl
      rw [buildConsolidatePayload_eq, keeping_sort] at hout
      cases hout
      obtain ⟨hroom, hpayload, hsame⟩ := carries_document.mp hcarries
      exact ⟨eq_of_sameChildren hperm hids hsame, hroom, hpayload⟩
    have htimes := (forall_sorted_eq_iff hnodup).mp fun l hperm hl => (hsorted l hperm hl).1
    obtain ⟨-, hroom, hpayload⟩ := hsorted created (.refl _) (htimes.imp le_of_lt)
    have hplain : ¬LooksConsolidated parent.Payload := fun h => meaning_basePayload_ne h hpayload
    rw [basePayload_of_not hplain, depth_document] at hroom
    exact ⟨hplain, hroom.1, hroom.2, htimes⟩
  · rintro ⟨hplain, hroom, hresults, htimes⟩ slice children hperm -
    have hsorted : slice.sort children = created :=
      (forall_sorted_eq_iff hnodup).mpr htimes _ ((slice.perm children).trans hperm)
        (slice.sorted children)
    refine ⟨_, buildConsolidatePayload_eq slice parent children, carries_document.mpr ?_⟩
    rw [hsorted, basePayload_of_not hplain]
    exact ⟨(depth_document _ _).mpr ⟨hroom, hresults⟩, rfl, sameChildren_self created⟩

end Function

/-! ### Along a run -/

variable {cfg : Config} {s t : World} {id : String} {job : Job} {created : List Job}

def childrenOf (t : World) (id : String) : List Job :=
  t.jobs.values.filter fun j => j.ParentJobID = id

lemma nodup_IDs_childrenOf (t : World) (id : String) : ((childrenOf t id).map Job.ID).Nodup := by
  refine ((nodup_values t.jobs).filter _).map_on fun a ha b hb heq => ?_
  have ha := mem_values.mp (List.mem_of_mem_filter ha)
  have hb := mem_values.mp (List.mem_of_mem_filter hb)
  rw [heq, hb] at ha
  exact (Option.some.inj ha).symm

lemma ends_resolveDispatchPayload {slice : Sorter Job.CreatedAt} {r : Option JsonOrBytes}
    {u : World} (hphase : job.Phase = .consolidate) :
    Prog.Ends (exec cfg.toStores) (resolveDispatchPayload
        { cfg with buildConsolidatePayload := buildConsolidatePayload slice } job) t r u ↔
      ∃ children, children.Perm (childrenOf t job.ID) ∧ Sorted Job.CreatedAt children ∧ u = t ∧
        r = buildConsolidatePayload slice job children := by
  rw [resolveDispatchPayload, if_neg (not_not.mpr hphase)]
  constructor
  · rintro ⟨children, v, ⟨hperm, hsorted, rfl⟩, hr, hu⟩
    exact ⟨children, hperm, hsorted, hu, hr⟩
  · rintro ⟨children, hperm, hsorted, rfl, rfl⟩
    exact ⟨children, u, ⟨hperm, hsorted, rfl⟩, rfl, rfl⟩

/-- Dispatched for its consolidate phase, the job gets its payload `p` and its children. -/
def Dispatches (cfg : Config) (t : World) (job : Job) (p : JsonOrBytes) (created : List Job) :
    Prop :=
  ∀ slice, (∃ r u, Prog.Ends (exec cfg.toStores) (resolveDispatchPayload
      { cfg with buildConsolidatePayload := buildConsolidatePayload slice } job) t r u) ∧
    ∀ r u, Prog.Ends (exec cfg.toStores) (resolveDispatchPayload
      { cfg with buildConsolidatePayload := buildConsolidatePayload slice } job) t r u →
        ∃ out, r = some out ∧ Carries p created out

lemma dispatches_iff (hphase : job.Phase = .consolidate)
    (hcreated : created.Perm (childrenOf t job.ID)) :
    Dispatches cfg t job job.Payload created ↔ Intact job.Payload created := by
  have hids : (created.map Job.ID).Nodup :=
    (hcreated.map Job.ID).nodup_iff.mpr (nodup_IDs_childrenOf t job.ID)
  rw [← buildConsolidatePayload_iff hids]
  constructor
  · intro h slice children hperm hsorted
    obtain ⟨out, hout, hcarries⟩ := (h slice).2 _ t ((ends_resolveDispatchPayload hphase).mpr
      ⟨children, hperm.trans hcreated, hsorted, rfl, rfl⟩)
    exact ⟨out, hout, hcarries⟩
  · intro h slice
    have hlist := (insertion Job.CreatedAt).perm (childrenOf t job.ID)
    refine ⟨⟨_, t, (ends_resolveDispatchPayload hphase).mpr
      ⟨_, hlist, (insertion Job.CreatedAt).sorted _, rfl, rfl⟩⟩, fun r u he => ?_⟩
    obtain ⟨children, hperm, hsorted, -, rfl⟩ := (ends_resolveDispatchPayload hphase).mp he
    exact h slice children (hperm.trans hcreated.symm) hsorted

/-- **The payload of the consolidate phase.** A job that is stored with payload `p` is stored
with it after any operations; dispatched for its consolidate phase it gets `p` and its children
in the order they were created in exactly when these are intact. -/
theorem dispatches_iff_intact {tr : List (World × Op)} (hs : IDsIssued s)
    (hjob : s.jobs.get id = some job) (hrun : Run (step cfg) s tr t)
    (hcreated : created.Perm (childrenOf t id)) :
    ∃ job', t.jobs.get id = some job' ∧ (job'.Phase = .consolidate →
      (Dispatches cfg t job' job.Payload created ↔ Intact job.Payload created)) := by
  obtain ⟨job', hjob', horigin⟩ := (survive_run hs hrun).1 id job hjob
  have hid : job'.ID = id := key_of_get hjob'
  refine ⟨job', hjob', fun hphase => ?_⟩
  rw [← horigin.Payload]
  exact dispatches_iff hphase (hid ▸ hcreated)

/-! ### A parent of two -/

def firstChild : Job :=
  { ID := "a", ParentJobID := "p", TaskName := "encode", Status := .running, CreatedAt := 1 }

def secondChild : Job :=
  { ID := "b", ParentJobID := "p", TaskName := "encode", Status := .completed, CreatedAt := 2 }

/-- A parent with payload `p` waits for the first of its children. -/
def waiting (p : JsonOrBytes) : World :=
  { World.initial with
    jobs := (((Table.empty Job.ID).put
      { ID := "p", Status := .awaitingChildren, Payload := p }).put secondChild).put firstChild
    issued := {"a", "b", "p"} }

lemma waiting_issued (p : JsonOrBytes) : IDsIssued (waiting p) := by
  refine ⟨forall_get_ne_none.mpr fun j hj => ?_, fun id h => absurd rfl h⟩
  have hid : j.ID ∈ ["a", "b", "p"] := List.mem_map_of_mem (f := Job.ID) hj
  simpa [waiting] using hid

def bothDone : List Job := [(JobMutation.completed none).apply 0 firstChild, secondChild]

/-- That child completes, and the parent enters its consolidate phase. -/
lemma consolidates (p : JsonOrBytes) : ∃ tr t job, Run (step .defaults) (waiting p) tr t ∧
    t.jobs.get "p" = some job ∧ job.Phase = .consolidate ∧ job.ID = "p" ∧ job.Payload = p ∧
      childrenOf t "p" = bothDone :=
  ⟨_, _, _, run_played [.result 0 ⟨"a", "", .success, "", 0, [], none⟩] {} rfl, rfl, rfl, rfl,
    rfl, rfl⟩

lemma intact_bothDone : Intact (some (render (.obj []))) bothDone := by
  have hparse : parse maxNestingDepth (render (.obj [])) = some (.obj []) :=
    parse_render (.obj (by simp) (by simp))
  refine ⟨?_, ?_, by decide, by decide⟩
  · rintro ⟨bs, previous, inner, hbs, hprev, hinner⟩
    cases hbs
    cases hprev
    cases hinner
  · decide

theorem dispatches_iff_intact_two :
    ∃ tr t job, Run (step .defaults) (waiting (some (render (.obj [])))) tr t ∧
      t.jobs.get "p" = some job ∧ job.Phase = .consolidate ∧
      Dispatches .defaults t job (some (render (.obj []))) bothDone := by
  obtain ⟨tr, t, job, hrun, hget, hphase, -, -, hdone⟩ := consolidates (some (render (.obj [])))
  obtain ⟨job', hjob', h⟩ :=
    dispatches_iff_intact (waiting_issued _) rfl hrun (.of_eq hdone.symm)
  obtain rfl : job = job' := Option.some.inj (hget.symm.trans hjob')
  exact ⟨tr, t, job, hrun, hget, hphase, (h hphase).mpr intact_bothDone⟩

def wrapped : Value := .obj [member "payload" (encodeInt 1)]

/-- **A payload is unwrapped**: a job submitted with `{"payload":1}` is dispatched with the
payload `1` in its consolidate phase. -/
theorem payload_unwrapped :
    ∃ tr t job out, Run (step .defaults) (waiting (some (render wrapped))) tr t ∧
      t.jobs.get "p" = some job ∧ job.Phase = .consolidate ∧
      Prog.Ends (exec Config.defaults.toStores) (resolveDispatchPayload { Config.defaults with
        buildConsolidatePayload := buildConsolidatePayload (insertion _) } job) t (some out) t ∧
      out = some (render (encodeConsolidatePayload (encodeInt 1)
        (bothDone.map fun c => encodeChildJobResult c .null))) ∧
      ¬Carries (some (render wrapped)) bothDone out := by
  have hone {d : ℕ} : WellFormed d (encodeInt 1) := wellFormed_encodeInt 1
  have hparse : parse maxNestingDepth (render wrapped) = some wrapped :=
    parse_render (wellFormed_members [("payload", encodeInt 1)] (by simpa using hone))
  have hprev : unmarshalPrevious (render wrapped) = some ⟨some (render (encodeInt 1)), []⟩ := by
    rw [unmarshalPrevious, hparse]
    simp +decide [decodeConsolidatePayload, wrapped, members, field_member, decodePayload,
      UnmarshalJSON_other (d := 0) hone fun raw h => Value.noConfusion h]
  have hlooks : LooksConsolidated (some (render wrapped)) := ⟨_, _, _, rfl, hprev, rfl⟩
  have hbase : basePayload (some (render wrapped)) = some (render (encodeInt 1)) := by
    have hne : render wrapped ≠ [] := by simp [wrapped, render]
    simp [basePayload, hprev, hne]
  obtain ⟨tr, t, job, hrun, hget, hphase, hid, hpayload, hdone⟩ :=
    consolidates (some (render wrapped))
  have hbuilt := buildConsolidatePayload_eq (insertion _) job bothDone
  rw [hpayload] at hbuilt
  refine ⟨tr, t, job, _, hrun, hget, hphase, (ends_resolveDispatchPayload hphase).mpr
    ⟨bothDone, .of_eq (hid ▸ hdone.symm), sorted_iff_map.mpr (by decide), rfl, hbuilt.symm⟩, ?_,
    fun h => ?_⟩
  · rw [hbase, document, payloadValue, jsonForm_json (parse_render hone)]
    rfl
  · exact meaning_basePayload_ne hlooks (carries_document.mp h).2.1

end Workforce.ConsolidatePayloads
