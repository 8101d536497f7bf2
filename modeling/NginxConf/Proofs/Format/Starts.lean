import NginxConf.Format
import NginxConf.Proofs.Parse.Clean

/-!
# Where items begin

The items of a file without errors, its statements and the entries of its geo blocks, begin and end
as statements do. Each therefore begins at a token, and none begins at a `}` (`not_mem_itemStarts`).
-/

namespace NginxConf

variable {s : Text}

/-- Which child nodes stand on lines of their own. -/
theorem NodeRef.mem_items {m item : NodeRef} : item ∈ m.items ↔ item ∈ m.nodes ∧
    ((m.kind = .sourceFile ∨ m.kind = .block) ∧ item.kind.isStatement = true ∨
      m.kind = .geoBlock ∧ item.kind = .geoItem) := by
  have hstatements : item ∈ m.statements.map Statement.node
      ↔ item ∈ m.nodes ∧ item.kind.isStatement = true := by
    rw [← StatementSort.isSome_ofKind?, List.mem_map]
    constructor
    · rintro ⟨st, hst, rfl⟩
      obtain ⟨n, hn, hst⟩ := List.mem_filterMap.1 hst
      obtain ⟨sort, hsort, rfl⟩ := Option.map_eq_some_iff.1 hst
      exact ⟨hn, by simp [hsort]⟩
    · rintro ⟨hn, hsome⟩
      obtain ⟨sort, hsort⟩ := Option.isSome_iff_exists.1 hsome
      exact ⟨⟨sort, item⟩, List.mem_filterMap.2 ⟨item, hn, by simp [NodeRef.statement?, hsort]⟩, rfl⟩
  unfold NodeRef.items
  split
  · next hkind => rw [hstatements]; simp [hkind]
  · next hkind => rw [hstatements]; simp [hkind]
  · next hkind => simp [hkind, NodeRef.geoItems, NodeRef.nodesOfKind]
  · next h1 h2 h3 =>
    simp only [List.not_mem_nil, false_iff]
    rintro ⟨-, (⟨h | h, -⟩ | ⟨h, -⟩)⟩
    · exact h1 h
    · exact h2 h
    · exact h3 h

/-- What a node has on lines of their own are child nodes. -/
theorem mem_nodes_of_mem_items {m item : NodeRef} (hitem : item ∈ m.items) : item ∈ m.nodes :=
  (NodeRef.mem_items.1 hitem).1

section Clean

variable (h : (parse s).hasErrors = false)

include h

/-- What stands in a block or in the whole file begins and ends as statements do. -/
theorem itemlike_of_mem_items {m item : NodeRef}
    (hm : m ∈ (NodeRef.root (parse s).tree).descendants) (hitem : item ∈ m.items) :
    (Tree.node item.kind item.children).Itemlike Token.kind := by
  have hchild := NodeRef.node_mem_children (mem_nodes_of_mem_items hitem)
  have hkind : m.kind = .sourceFile ∨ m.kind.isBlock = true := by
    rcases (NodeRef.mem_items.1 hitem).2 with ⟨hkind | hkind, -⟩ | ⟨hkind, -⟩
    · exact .inl hkind
    · exact .inr (by rw [hkind]; rfl)
    · exact .inr (by rw [hkind]; rfl)
  rcases hkind with hkind | hkind
  · obtain ⟨items, hchildren, hitems⟩ := itemlike_of_file h
    rw [children_of_sourceFile hm hkind, hchildren] at hchild
    rcases List.mem_append.1 hchild with hchild | hchild
    · exact hitems _ hchild
    · cases List.mem_singleton.1 hchild
  · obtain ⟨l, items, r, hchildren, -, -, hitems⟩ := braced_of_mem_descendants h hm hkind
    rw [hchildren] at hchild
    rcases List.mem_append.1 hchild with hchild | hchild
    · rcases List.mem_cons.1 hchild with hchild | hchild
      · cases hchild
      · exact hitems _ hchild
    · cases List.mem_singleton.1 hchild

/-- Where a statement or the entry of a geo block begins, a token begins, and no `}`. -/
theorem exists_first_of_mem_items {m item : NodeRef}
    (hm : m ∈ (NodeRef.root (parse s).tree).descendants) (hitem : item ∈ m.items) :
    ∃ t ts, item.allTokens = t :: ts ∧ t.token.kind ≠ .rightBrace := by
  obtain ⟨first, more, hleaves, hfirst⟩ := (itemlike_of_mem_items h hm hitem).head
  have hmap := item.map_token_allTokens
  rw [show Tree.forestLeaves item.children = first :: more from hleaves] at hmap
  obtain ⟨t, ts, htokens, rfl, -⟩ := List.map_eq_cons_iff.1 hmap
  exact ⟨t, ts, htokens, hfirst⟩

/-- **No statement begins at a `}`.** -/
theorem not_mem_itemStarts {t : TokenRef} (ht : t ∈ (NodeRef.root (parse s).tree).allTokens)
    (hk : t.token.kind = .rightBrace) :
    t.span.start ∉ (NodeRef.root (parse s).tree).itemStarts := by
  intro hstart
  obtain ⟨m, hm, hstart⟩ := List.mem_flatMap.1 hstart
  obtain ⟨item, hitem, hstart⟩ := List.mem_map.1 hstart
  obtain ⟨u, us, htokens, hu⟩ := exists_first_of_mem_items h hm hitem
  rw [NodeRef.trimmedSpan_start htokens] at hstart
  have hbelow : item ∈ (NodeRef.root (parse s).tree).descendants := by
    refine NodeRef.descendants_subset hm (NodeRef.mem_descendants_of_mem_nodes ?_)
    exact mem_nodes_of_mem_items hitem
  have hmem : u ∈ (NodeRef.root (parse s).tree).allTokens :=
    (NodeRef.infix_allTokens hbelow).subset (htokens ▸ List.mem_cons_self)
  rw [eq_of_start_eq h hmem ht hstart] at hu
  exact hu hk

end Clean

end NginxConf
