import EuroOS.Portal

/-!
# Remembered permissions

What the text of remembered permissions is read back as.  The line format has no
escapes: a tab or a line feed in a name or a detail changes the fields and lines
around it, and a carriage return at the end of a detail is taken for a part of
the line end.  Without those every remembered permission comes back.
-/

namespace EuroOS.Portal

open List Str

def Resource.detail : Resource → Str
  | .fileRead p => p
  | .fileWrite p => p
  | .network h => h
  | _ => []

def Resource.mapDetail (f : Str → Str) : Resource → Resource
  | .fileRead p => .fileRead (f p)
  | .fileWrite p => .fileWrite (f p)
  | .network h => .network (f h)
  | r => r

theorem Resource.mapDetail_eq_self (f : Str → Str) (hnil : f [] = []) (r : Resource) :
    r.mapDetail f = r ↔ f r.detail = r.detail := by cases r <;> simp [mapDetail, detail, hnil]

theorem afterStart_append (start s : Str) : afterStart start (start ++ s) = some s := by
  simp [afterStart]

def IsField (s : Str) : Prop := '\t' ∉ s ∧ '\n' ∉ s

instance (s : Str) : Decidable (IsField s) := inferInstanceAs (Decidable (_ ∧ _))

theorem IsField.of_subset (h : IsField t) (hsub : s ⊆ t) : IsField s :=
  ⟨fun hmem => h.1 (hsub hmem), fun hmem => h.2 (hsub hmem)⟩

theorem decodeKind_encodeKind (k : ResourceKind) : decodeKind (encodeKind k) = some k := by
  cases k <;> decide +kernel

theorem isField_encodeKind (k : ResourceKind) : IsField (encodeKind k) ∧ '\r' ∉ encodeKind k := by
  cases k <;> decide +kernel

theorem isField_encodeResource (h : IsField r.detail) : IsField (encodeResource r) := by
  have hnotin : ∀ s : Str, IsField s → ∀ t : Str, IsField t → IsField (s ++ t) := by
    intro s hs t ht
    simp [IsField, hs.1, hs.2, ht.1, ht.2]
  cases r with
  | fileRead p => exact hnotin _ (by decide +kernel) _ h
  | fileWrite p => exact hnotin _ (by decide +kernel) _ h
  | network p => exact hnotin _ (by decide +kernel) _ h
  | _ => decide +kernel

theorem fileRead_toList : "file_read:".toList = ['f', 'i', 'l', 'e', '_', 'r', 'e', 'a', 'd', ':'] := by
  decide +kernel

theorem fileWrite_toList :
    "file_write:".toList = ['f', 'i', 'l', 'e', '_', 'w', 'r', 'i', 't', 'e', ':'] := by
  decide +kernel

theorem network_toList : "network:".toList = ['n', 'e', 't', 'w', 'o', 'r', 'k', ':'] := by
  decide +kernel

theorem stripCr_append_of_notMem (hne : start ≠ []) (hcr : '\r' ∉ start) (s : Str) :
    stripCr (start ++ s) = start ++ stripCr s := by
  cases start using List.reverseRecOn with
  | nil => exact absurd rfl hne
  | append_singleton start last =>
    have hlast : last ≠ '\r' := fun heq => hcr (by simp [heq])
    rw [append_assoc, singleton_append, stripCr_append_cons start s hlast]
    simp

theorem decodeResource_fileRead (p : Str) :
    decodeResource ("file_read:".toList ++ p) = some (.fileRead p) := by
  unfold decodeResource
  generalize "file_read:".toList = start
  rw [afterStart_append]

theorem decodeResource_fileWrite (p : Str) :
    decodeResource ("file_write:".toList ++ p) = some (.fileWrite p) := by
  have hother : afterStart "file_read:".toList ("file_write:".toList ++ p) = none := by
    rw [fileRead_toList, fileWrite_toList]
    rfl
  unfold decodeResource
  simp only [hother]
  generalize "file_write:".toList = start
  rw [afterStart_append]

theorem decodeResource_network (h : Str) :
    decodeResource ("network:".toList ++ h) = some (.network h) := by
  have hread : afterStart "file_read:".toList ("network:".toList ++ h) = none := by
    rw [fileRead_toList, network_toList]
    rfl
  have hwrite : afterStart "file_write:".toList ("network:".toList ++ h) = none := by
    rw [fileWrite_toList, network_toList]
    rfl
  unfold decodeResource
  simp only [hread, hwrite]
  generalize "network:".toList = start
  rw [afterStart_append]

theorem decodeResource_stripCr (r : Resource) :
    decodeResource (stripCr (encodeResource r)) = some (r.mapDetail stripCr) := by
  cases r with
  | fileRead p =>
    have hstrip : stripCr (encodeResource (.fileRead p)) = "file_read:".toList ++ stripCr p :=
      stripCr_append_of_notMem (by decide +kernel) (by decide +kernel) p
    exact (congrArg decodeResource hstrip).trans (decodeResource_fileRead _)
  | fileWrite p =>
    have hstrip : stripCr (encodeResource (.fileWrite p)) = "file_write:".toList ++ stripCr p :=
      stripCr_append_of_notMem (by decide +kernel) (by decide +kernel) p
    exact (congrArg decodeResource hstrip).trans (decodeResource_fileWrite _)
  | network p =>
    have hstrip : stripCr (encodeResource (.network p)) = "network:".toList ++ stripCr p :=
      stripCr_append_of_notMem (by decide +kernel) (by decide +kernel) p
    exact (congrArg decodeResource hstrip).trans (decodeResource_network _)
  | _ => decide +kernel

theorem isField_of_decodeResource (hs : IsField s) (h : decodeResource s = some r) :
    IsField r.detail := by
  have hafter : ∀ {start p : Str}, afterStart start s = some p → IsField p := by
    intro start p hp
    unfold afterStart at hp
    split_ifs at hp
    cases hp
    exact hs.of_subset (drop_subset _ _)
  unfold decodeResource at h
  split at h
  case h_1 p hp =>
    cases h
    exact hafter hp
  split at h
  case h_1 p hp =>
    cases h
    exact hafter hp
  split at h
  case h_1 p hp =>
    cases h
    exact hafter hp
  split_ifs at h <;> cases h <;> decide

/-! ## Loading lines -/

namespace Broker

def RulesUnique (b : Broker) : Prop := (b.rules.map fun r => (r.1, r.2.1)).Nodup

variable {b : Broker}

theorem RulesUnique.setRule (h : b.RulesUnique) (app : Str) (kind : ResourceKind)
    (decision : Decision) : (b.setRule app kind decision).RulesUnique := by
  unfold RulesUnique Broker.setRule at *
  rw [map_append, nodup_append]
  refine ⟨(List.Nodup.sublist (filter_sublist.map _) h), by simp, ?_⟩
  intro key hkey other hother
  obtain ⟨rule, hrule, rfl⟩ := mem_map.mp hkey
  rintro rfl
  simp_all

theorem rulesUnique_run (calls : List Call) : (machine.run .new calls).RulesUnique := by
  have hallowed : machine.Allowed (fun _ _ => True) .new calls :=
    (CallMachine.allowed_iff _ _).mpr fun _ _ _ => trivial
  refine CallMachine.run_invariant RulesUnique ?_ nodup_nil hallowed
  intro b call h _
  cases call with
  | request app resource =>
    change ((b.request app resource).1).RulesUnique
    unfold Broker.request
    split
    · exact h
    · split <;> exact h
  | respond prompt allow scope =>
    change ((b.respond prompt allow scope).1).RulesUnique
    unfold Broker.respond
    split
    · exact h
    dsimp only
    split_ifs
    · exact h
    · exact RulesUnique.setRule (b := { b with pending := _, audit := _ }) h _ _ _
    · exact h
  | check app resource =>
    change ((b.check app resource).1).RulesUnique
    unfold Broker.check
    split
    · split_ifs <;> exact h
    · exact h
  | setRule app kind decision => exact h.setRule app kind decision
  | revokeAll app => exact h
  | endSession => exact h

theorem splitOn_fields {a b c : Str} (ha : '\t' ∉ a) (hb : '\t' ∉ b) (hc : '\t' ∉ c) :
    (a ++ '\t' :: (b ++ '\t' :: c)).splitOn '\t' = [a, b, c] := by
  rw [splitOn_append_cons_self, splitOn_append_cons_self, splitOn_eq_singleton ha,
    splitOn_eq_singleton hb, splitOn_eq_singleton hc]
  rfl

theorem loadLine_grantLine (b : Broker) {g : Grant} (happ : IsField g.app)
    (hdetail : IsField g.resource.detail) :
    b.loadLine (stripCr (grantLine g)) =
      { b with grants := b.grants ++ [⟨g.app, g.resource.mapDetail stripCr, .persistent⟩] } := by
  have hline : stripCr (grantLine g) =
      "grant".toList ++ '\t' :: (g.app ++ '\t' :: stripCr (encodeResource g.resource)) := by
    rw [grantLine, stripCr_append_cons _ _ (by decide), stripCr_append_cons _ _ (by decide)]
  have hvalue : '\t' ∉ stripCr (encodeResource g.resource) := fun hmem =>
    (isField_encodeResource hdetail).1 (mem_of_mem_stripCr hmem)
  unfold loadLine
  rw [hline, splitOn_fields (by decide +kernel) happ.1 hvalue]
  simp only [decodeResource_stripCr, if_true]

theorem loadLine_denyLine (b : Broker) {app : Str} (happ : IsField app) (kind : ResourceKind) :
    b.loadLine (stripCr (denyLine app kind)) = b.setRule app kind .deny := by
  have hline : stripCr (denyLine app kind) = denyLine app kind := by
    rw [denyLine, stripCr_append_cons _ _ (by decide), stripCr_append_cons _ _ (by decide),
      stripCr_eq_self (isField_encodeKind kind).2]
  unfold loadLine
  rw [hline, denyLine, splitOn_fields (by decide +kernel) happ.1 (isField_encodeKind kind).1.1]
  simp [decodeKind_encodeKind]

theorem foldl_grantLines (gs : List Grant) (b : Broker)
    (hfields : ∀ g ∈ gs, IsField g.app ∧ IsField g.resource.detail) :
    ((gs.map grantLine).map stripCr).foldl loadLine b =
      { b with grants := b.grants ++
          gs.map fun g => ⟨g.app, g.resource.mapDetail stripCr, .persistent⟩ } := by
  induction gs generalizing b with
  | nil => simp
  | cons g gs ih =>
    obtain ⟨hg, hgs⟩ := forall_mem_cons.mp hfields
    rw [map_cons, map_cons, foldl_cons, loadLine_grantLine b hg.1 hg.2, ih _ hgs]
    simp

theorem setRule_of_new (decision : Decision)
    (hnew : (app, kind) ∉ b.rules.map fun r => (r.1, r.2.1)) :
    b.setRule app kind decision = { b with rules := b.rules ++ [(app, kind, decision)] } := by
  have hfilter : b.rules.filter (fun r => !(r.1 = app && r.2.1 = kind)) = b.rules := by
    refine List.filter_eq_self.mpr fun rule hrule => ?_
    by_contra hsame
    refine hnew (mem_map.mpr ⟨rule, hrule, ?_⟩)
    simp_all
  rw [Broker.setRule, hfilter]

theorem foldl_denyLines (rs : List (Str × ResourceKind × Decision)) (b : Broker)
    (hfields : ∀ r ∈ rs, IsField r.1) (hdeny : ∀ r ∈ rs, r.2.2 = .deny)
    (hunique : ((b.rules ++ rs).map fun r => (r.1, r.2.1)).Nodup) :
    ((rs.map fun r => denyLine r.1 r.2.1).map stripCr).foldl loadLine b =
      { b with rules := b.rules ++ rs } := by
  induction rs generalizing b with
  | nil => simp
  | cons r rs ih =>
    obtain ⟨hr, hrs⟩ := forall_mem_cons.mp hfields
    obtain ⟨hdecision, hdecisions⟩ := forall_mem_cons.mp hdeny
    have hrule : (r.1, r.2.1, Decision.deny) = r := by rw [← hdecision]
    have hnew : (r.1, r.2.1) ∉ b.rules.map fun r => (r.1, r.2.1) := by
      rw [map_append, map_cons, nodup_append] at hunique
      exact fun hmem => hunique.2.2 _ hmem _ mem_cons_self rfl
    rw [map_cons, map_cons, foldl_cons, loadLine_denyLine b hr,
      setRule_of_new _ hnew, hrule, ih _ hrs hdecisions (by simpa using hunique)]
    simp

structure Loaded (b : Broker) : Prop where
  grants : ∀ g ∈ b.grants, IsField g.app ∧ IsField g.resource.detail
  rules : ∀ r ∈ b.rules, IsField r.1

theorem Loaded.loadLine (h : b.Loaded) (hline : '\n' ∉ line) : (b.loadLine line).Loaded := by
  unfold Broker.loadLine
  split
  case h_2 => exact h
  case h_1 tag app value hsplit =>
  have hfield : ∀ piece ∈ [tag, app, value], IsField piece := by
    intro piece hpiece
    rw [← hsplit] at hpiece
    exact ⟨fun htab => (mem_of_mem_splitOn hpiece htab).2 rfl,
      fun hfeed => hline (mem_of_mem_splitOn hpiece hfeed).1⟩
  have happ : IsField app := hfield app (by simp)
  split_ifs
  · cases hvalue : decodeResource value with
    | none => exact h
    | some r =>
      refine ⟨fun g hg => ?_, h.rules⟩
      rcases mem_append.mp hg with hg | hg
      · exact h.grants g hg
      · rw [mem_singleton.mp hg]
        exact ⟨happ, isField_of_decodeResource (hfield value (by simp)) hvalue⟩
  · cases decodeKind value with
    | none => exact h
    | some k =>
      refine ⟨h.grants, fun rule hrule => ?_⟩
      rcases mem_append.mp hrule with hrule | hrule
      · exact h.rules rule (mem_of_mem_filter hrule)
      · rw [mem_singleton.mp hrule]
        exact happ
  · exact h

theorem loaded_loadPersistent (blob : Str) : (Broker.new.loadPersistent blob).Loaded := by
  have hfold : ∀ (lines : List Str) (b : Broker), (∀ line ∈ lines, '\n' ∉ line) → b.Loaded →
      (lines.foldl Broker.loadLine b).Loaded := by
    intro lines
    induction lines with
    | nil => exact fun b _ h => h
    | cons line lines ih =>
      intro b hlines h
      obtain ⟨hline, hlines⟩ := forall_mem_cons.mp hlines
      exact ih _ hlines (h.loadLine hline)
  exact hfold _ _ (fun line => notMem_of_mem_lines) ⟨by simp [Broker.new], by simp [Broker.new]⟩

/-! ## What is remembered -/

def persistentGrants (b : Broker) : List Grant := b.grants.filter (·.scope = .persistent)

def denyRules (b : Broker) : List (Str × ResourceKind × Decision) := b.rules.filter (·.2.2 = .deny)

/-- A fresh broker that loads the text has exactly the remembered grants and refusals. -/
def Remembers (b : Broker) : Prop :=
  (Broker.new.loadPersistent b.serializePersistent).grants = b.persistentGrants ∧
    (Broker.new.loadPersistent b.serializePersistent).rules = b.denyRules

instance (b : Broker) : Decidable b.Remembers := inferInstanceAs (Decidable (_ ∧ _))

structure Fields (b : Broker) : Prop where
  grants : ∀ g ∈ b.persistentGrants, IsField g.app ∧ IsField g.resource.detail
  rules : ∀ r ∈ b.denyRules, IsField r.1

theorem load_serialize (hfields : b.Fields) (hunique : b.RulesUnique) :
    Broker.new.loadPersistent b.serializePersistent =
      { Broker.new with
        grants := b.persistentGrants.map fun g => ⟨g.app, g.resource.mapDetail stripCr, .persistent⟩
        rules := b.denyRules } := by
  have hfeed : ∀ {a c : Str}, '\n' ∉ a → '\n' ∉ c → ∀ tag : Str, '\n' ∉ tag →
      '\n' ∉ tag ++ '\t' :: (a ++ '\t' :: c) := by
    intro a c ha hc tag htag
    simp [ha, hc, htag]
  have hlines : ∀ line ∈ b.persistentLines, '\n' ∉ line := by
    intro line hline
    rcases mem_append.mp hline with hline | hline
    · obtain ⟨g, hg, rfl⟩ := mem_map.mp hline
      have hgrant := hfields.grants g hg
      exact hfeed hgrant.1.2 (isField_encodeResource hgrant.2).2 _ (by decide +kernel)
    · obtain ⟨r, hr, rfl⟩ := mem_map.mp hline
      exact hfeed (hfields.rules r hr).2 (isField_encodeKind _).1.2 _ (by decide +kernel)
  have hsplit : b.persistentLines.flatMap (·.splitOn '\n') = b.persistentLines := by
    rw [flatMap_congr fun line hline => splitOn_eq_singleton (hlines line hline)]
    simp
  have hrules : ((([] : List (Str × ResourceKind × Decision)) ++ b.denyRules).map
      fun r => (r.1, r.2.1)).Nodup := hunique.sublist (filter_sublist.map _)
  have hpersistent : b.persistentLines = b.persistentGrants.map grantLine ++
      b.denyRules.map fun r => denyLine r.1 r.2.1 := rfl
  rw [loadPersistent, serializePersistent, lines_flatMap, hsplit, hpersistent, map_append,
    foldl_append, foldl_grantLines _ _ hfields.grants, foldl_denyLines _ _ hfields.rules
    (fun r hr => by simpa using (mem_filter.mp hr).2) hrules]
  simp [Broker.new]

/-- What is remembered is made of fields, and no detail ends in a carriage return. -/
structure Recordable (b : Broker) : Prop extends Fields b where
  ends : ∀ g ∈ b.persistentGrants, g.resource.detail.getLast? ≠ some '\r'

theorem stripCr_eq_self_iff (s : Str) : stripCr s = s ↔ s.getLast? ≠ some '\r' := by
  constructor
  · intro heq hlast
    have hne : s ≠ [] := by
      rintro rfl
      simp at hlast
    have hlen := congrArg List.length heq
    rw [stripCr, if_pos hlast, length_dropLast] at hlen
    have hpos := length_pos_of_ne_nil hne
    omega
  · intro hlast
    exact if_neg hlast

theorem Remembers.fields (h : b.Remembers) : b.Fields := by
  have hloaded := loaded_loadPersistent b.serializePersistent
  refine ⟨fun g hg => hloaded.grants g ?_, fun r hr => hloaded.rules r ?_⟩
  · rwa [h.1]
  · rwa [h.2]

theorem Fields.remembers_iff (hfields : b.Fields) (hunique : b.RulesUnique) :
    b.Remembers ↔ ∀ g ∈ b.persistentGrants, g.resource.detail.getLast? ≠ some '\r' := by
  have hgrant : ∀ g ∈ b.persistentGrants,
      ((⟨g.app, g.resource.mapDetail stripCr, .persistent⟩ : Grant) = g ↔
        g.resource.detail.getLast? ≠ some '\r') := by
    intro g hg
    have hscope : g.scope = .persistent := by simpa using (mem_filter.mp hg).2
    rw [← stripCr_eq_self_iff, ← Resource.mapDetail_eq_self stripCr rfl]
    cases g
    simp_all
  unfold Remembers
  rw [load_serialize hfields hunique]
  simp only [and_true]
  constructor
  · intro heq g hg
    rw [← hgrant g hg]
    exact map_inj_left.mp (heq.trans (map_id _).symm) g hg
  · intro hends
    rw [map_congr_left fun g hg => (hgrant g hg).mpr (hends g hg), map_id']

/-- After any calls, a restart brings back exactly the remembered permissions iff they can be
recorded. -/
theorem remembers_iff_recordable (calls : List Call) :
    (machine.run .new calls).Remembers ↔ (machine.run .new calls).Recordable := by
  have hunique := rulesUnique_run calls
  constructor
  · intro h
    exact ⟨h.fields, (h.fields.remembers_iff hunique).mp h⟩
  · intro h
    exact (h.toFields.remembers_iff hunique).mpr h.ends

/-- An application that was allowed to read a folder with a chosen name: after the restart another
application may use the camera. -/
theorem not_remembers_spy :
    ¬ (machine.run .new [.request "notes".toList (.fileRead "/n\ngrant\tspy\tcamera".toList),
        .respond 1 true .persistent]).Remembers ∧
      ((Broker.new.loadPersistent (machine.run .new
        [.request "notes".toList (.fileRead "/n\ngrant\tspy\tcamera".toList),
          .respond 1 true .persistent]).serializePersistent).check "spy".toList .camera).2 = true := by
  decide +kernel

end Broker

end EuroOS.Portal
