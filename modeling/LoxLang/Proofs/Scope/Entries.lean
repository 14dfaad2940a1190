import LoxLang.Proofs.Scope.Rules

/-!
# Entries of the recorded depths

**Recording.** Recording a depth for a reference without an entry puts an entry behind all others;
recording it again would change the entry.  An analysis handles the sites of a program one after
another, and no two of them are of the same reference.  So it never changes an entry: it adds one
for each reference that some region around it binds, in the order of the sites.

**Results.**
* `entries_foldl_sites`: the entries behind some sites of new references.
* `recordsOnce_of_parsed`: what the analysis does to the entries.
-/

namespace LoxLang
namespace Scope

section Defs

/-- Whether a reference stands at a site that some region around it binds. -/
def Site.isLocal (s : Site) : Bool :=
  match s.item with
  | .reference _ r => (s.place.distance? r.name).isSome
  | _ => false

/-- Whether the analysis of a program adds entries to recorded depths and changes none. -/
structure RecordsOnce (depths : Depths) (program : List Stmt) : Prop where
  /-- The sites are handled one after another. -/
  analysis : (analyse depths program).depths = (sites program).foldl Site.record depths
  /-- Where a depth is recorded, its reference has no entry yet. -/
  once : ∀ front site back e, sites program = front ++ site :: back → site.recorded? = some e →
    (front.foldl Site.record depths).depth? e.reference.node = none
  entries : (analyse depths program).depths.entries =
    depths.entries ++ (sites program).filterMap Site.recorded?
  size : (analyse depths program).depths.size =
    depths.size + (sites program).countP Site.isLocal

end Defs

section Table

variable {d : Depths} {site : Site} {sites : List Site}

theorem Depths.put_of_new {entry : DepthEntry} {entries : List DepthEntry}
    (h : Depths.find? entry.reference.node entries = none) :
    Depths.put entry entries = entries ++ [entry] := by
  induction entries with
  | nil => rfl
  | cons old rest ih =>
    unfold Depths.find? at h
    split at h
    · cases h
    · rename_i hne
      rw [Depths.put, if_neg hne, ih h, List.cons_append]

/-- A site of a new reference puts its entry behind all others. -/
theorem entries_record_site (hnew : ∀ node ∈ site.node?, d.depth? node = none) :
    (Site.record d site).entries = d.entries ++ site.recorded?.toList := by
  unfold Site.record
  cases hentry : site.recorded? with
  | none => exact (List.append_nil _).symm
  | some e => exact Depths.put_of_new (hnew _ (node?_of_recorded? hentry))

/-- Sites of new references put their entries behind all others. -/
theorem entries_foldl_sites (hnodup : (sites.filterMap Site.node?).Nodup)
    (hnew : ∀ node ∈ sites.filterMap Site.node?, d.depth? node = none) :
    (sites.foldl Site.record d).entries = d.entries ++ sites.filterMap Site.recorded? := by
  induction sites generalizing d with
  | nil => exact (List.append_nil _).symm
  | cons site rest ih =>
    have hsplit : (site :: rest).filterMap Site.node? =
        site.node?.toList ++ rest.filterMap Site.node? := by
      cases hnode : site.node? <;> simp [hnode]
    rw [hsplit, List.nodup_append] at hnodup
    rw [hsplit, List.forall_mem_append] at hnew
    obtain ⟨-, hrest, hdisjoint⟩ := hnodup
    have hfirst := entries_record_site (d := d) fun node hnode =>
      hnew.1 node (Option.mem_toList.mpr hnode)
    have hlater : ∀ node ∈ rest.filterMap Site.node?, (Site.record d site).depth? node = none := by
      intro node hnode
      rw [depth?_record_of_ne fun hsite => hdisjoint node (by simp [hsite]) node hnode rfl]
      exact hnew.2 node hnode
    rw [List.foldl_cons, ih hrest hlater, hfirst, List.append_assoc]
    cases hentry : site.recorded? <;> simp [hentry]

/-- A reference at a proper site gets an entry if some region around it binds it. -/
theorem isSome_recorded? (hsite : site.Proper) : site.recorded?.isSome = site.isLocal := by
  obtain ⟨place, valueOf, item⟩ := site
  cases item with
  | reference use r =>
    have hdepth := congrArg Option.isSome (recorded?_of_proper hsite rfl)
    simpa [Site.isLocal] using hdepth
  | _ => rfl

theorem length_recorded? (hsites : ∀ site ∈ sites, site.Proper) :
    (sites.filterMap Site.recorded?).length = sites.countP Site.isLocal := by
  rw [List.length_filterMap_eq_countP]
  exact List.countP_congr fun site hsite => by rw [isSome_recorded? (hsites site hsite)]

end Table

section Parsed

variable {tokens : List Token} {firstNode : NodeId} {parsed : Parsed}

/-- The analysis of what is read from tokens, be there errors or not. -/
theorem recordsOnce_of_parsed (hproper : ∀ t ∈ tokens, t.Proper)
    (hparsed : Parsed.ofTokens tokens firstNode = .ok parsed) {depths : Depths}
    (hnew : ∀ node, firstNode ≤ node → depths.depth? node = none) :
    RecordsOnce depths parsed.statements := by
  have hmade := Parsed.ofTokens_madeOf hproper hparsed
  have hnodes : (sites parsed.statements).filterMap Site.node? =
      Stmt.nodesAll parsed.statements := Stmt.nodes_sitesAll parsed.statements []
  obtain ⟨-, hwithin, -⟩ := Parsed.ofTokens_within hparsed
  have hnodup : ((sites parsed.statements).filterMap Site.node?).Nodup := by
    rw [hnodes]
    exact hwithin.nodup
  have hfresh : ∀ node ∈ (sites parsed.statements).filterMap Site.node?,
      depths.depth? node = none := by
    rw [hnodes]
    exact fun node hnode => hnew node (hwithin.lower node hnode)
  have hanalysis : (analyse depths parsed.statements).depths =
      (sites parsed.statements).foldl Site.record depths := by rw [analyse_eq hmade depths]
  have hentries : (analyse depths parsed.statements).depths.entries =
      depths.entries ++ (sites parsed.statements).filterMap Site.recorded? := by
    rw [hanalysis, entries_foldl_sites hnodup hfresh]
  refine ⟨hanalysis, fun front site back e hsites hentry => ?_, hentries, ?_⟩
  · have hnode := node?_of_recorded? hentry
    rw [hsites, List.filterMap_append, List.filterMap_cons_some hnode] at hnodup hfresh
    have hfront : e.reference.node ∉ front.filterMap Site.node? := fun hmem =>
      (List.nodup_append.mp hnodup).2.2 _ hmem _ List.mem_cons_self rfl
    rw [depth?_foldl_of_not_mem hfront]
    exact hfresh _ (List.mem_append_right _ List.mem_cons_self)
  · rw [Depths.size, hentries, List.length_append, length_recorded? (proper_sites hmade)]
    rfl

end Parsed

end Scope
end LoxLang
