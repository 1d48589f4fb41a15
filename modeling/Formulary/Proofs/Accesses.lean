import Formulary.Proofs.TableRequests

namespace Formulary

/-- Where a text has the bindings accessed: at an operand that is a name, or at a call. -/
inductive Site where
  | argument (place : Fragment)
  | call (word : String) (place : Fragment) (arguments : List Outline)

/-- A call accesses the bindings at its closing parenthesis, the last byte of its place. -/
def Site.position : Site → Nat
  | .argument place => place.offset
  | .call _ place _ => place.stop - 1

/-- The accesses to the bindings at one site, with the bindings as they are found there. -/
structure Access where
  site : Site
  found : Bindings
  requests : List Request

mutual

/-- All operands that are names and all calls, in the order in which they end. -/
def Outline.sites : Outline → List Site
  | .fault .. => []
  | .number _ => []
  | .name place => [.argument place]
  | .minus operand => operand.sites
  | .binary _ left right => left.sites ++ right.sites
  | .call word place arguments => Outline.sitesAll arguments ++ [.call word place arguments]

def Outline.sitesAll : List Outline → List Site
  | [] => []
  | outline :: rest => outline.sites ++ Outline.sitesAll rest

end

mutual

/-- The accesses while an outline is resolved. A provider runs once its operands are made, and
the parser looks at the bindings when it checks what the provider made. -/
def Outline.accesses (registry : Registry) : Outline → Bindings → List Access
  | .fault .., _ => []
  | .number _, _ => []
  | .name place, b => [⟨.argument place, b, [.register (String.ofList place.text)]⟩]
  | .minus operand, b => operand.accesses registry b
  | .binary _ left right, b =>
    left.accesses registry b ++
      match (left.resolve registry).run b with
      | .ok (_, middle) => right.accesses registry middle
      | .error _ => []
  | .call word place arguments, b =>
    match registry.find? word with
    | none => []
    | some provider =>
      Outline.accessesAll registry arguments b ++
        match (Outline.resolveAll registry arguments).run b with
        | .ok (operands, middle) =>
          [⟨.call word place arguments, middle,
            (do let _ ← provider operands; Build.bindings).requests middle⟩]
        | .error _ => []

def Outline.accessesAll (registry : Registry) : List Outline → Bindings → List Access
  | [], _ => []
  | outline :: rest, b =>
    outline.accesses registry b ++
      match (outline.resolve registry).run b with
      | .ok (_, middle) => Outline.accessesAll registry rest middle
      | .error _ => []

end

variable {registry : Registry}

theorem requests_provider (x : Build Term) (check : Bindings → Term → Except Error Unit)
    (b : Bindings) :
    (do
      let term ← x
      let bindings ← Build.bindings
      Build.ofExcept (check bindings term)
      return term).requests b = (do let _ ← x; Build.bindings).requests b := by
  rw [Build.requests_bind, Build.requests_bind]
  cases x.run b with
  | error error => rfl
  | ok made =>
    obtain ⟨term, middle⟩ := made
    have hlook : (Build.bindings >>= fun bindings =>
        Build.ofExcept (check bindings term) >>= fun _ => pure term).requests middle =
        .look :: (Build.ofExcept (check middle term) >>= fun _ => pure term).requests middle := rfl
    have hcheck : (Build.ofExcept (check middle term) >>= fun _ => pure term).requests middle =
        [] := by
      rw [Build.requests_map, Build.requests_ofExcept]
    show _ ++ _ = _ ++ [Request.look]
    rw [← hcheck, ← hlook]

mutual

/-- Nothing but the listed accesses happens to the bindings. -/
theorem Outline.resolve_requests (o : Outline) (b : Bindings) :
    (o.resolve registry).requests b = (o.accesses registry b).flatMap Access.requests := by
  match o with
  | .fault cause place => rfl
  | .number value => rfl
  | .name place => rfl
  | .minus operand =>
    rw [Outline.resolve, Build.requests_map, Outline.accesses, Outline.resolve_requests operand b]
  | .binary op left right =>
    rw [Outline.resolve, Build.requests_bind, Outline.accesses, List.flatMap_append,
      Outline.resolve_requests left b]
    cases (left.resolve registry).run b with
    | error error => rfl
    | ok made =>
      obtain ⟨x, middle⟩ := made
      simp only [Build.requests_map, Outline.resolve_requests right middle]
  | .call word place arguments =>
    rw [Outline.resolve, Outline.accesses]
    cases registry.find? word with
    | none => rfl
    | some provider =>
      simp only [Build.requests_bind (Outline.resolveAll registry arguments), List.flatMap_append,
        Outline.resolveAll_requests arguments b]
      cases (Outline.resolveAll registry arguments).run b with
      | error error => rfl
      | ok made =>
        obtain ⟨operands, middle⟩ := made
        have hcheck := requests_provider (provider operands)
          (fun bindings term => term.check word place bindings.size) middle
        simp only [hcheck, List.flatMap_cons, List.flatMap_nil, List.append_nil]

theorem Outline.resolveAll_requests (outlines : List Outline) (b : Bindings) :
    (Outline.resolveAll registry outlines).requests b =
      (Outline.accessesAll registry outlines b).flatMap Access.requests := by
  match outlines with
  | [] => rfl
  | outline :: rest =>
    rw [Outline.resolveAll, Build.requests_bind, Outline.accessesAll, List.flatMap_append,
      Outline.resolve_requests outline b]
    cases (outline.resolve registry).run b with
    | error error => rfl
    | ok made =>
      obtain ⟨x, middle⟩ := made
      simp only [Build.requests_map, Outline.resolveAll_requests rest middle]

end

/-- Each access finds the bindings that the accesses before it leave. -/
def Traced : Bindings → List Access → Prop
  | _, [] => True
  | b, access :: rest => access.found = b ∧ Traced (b.serveAll access.requests) rest

theorem traced_append {b : Bindings} {first later : List Access} :
    Traced b (first ++ later) ↔
      Traced b first ∧ Traced (b.serveAll (first.flatMap Access.requests)) later := by
  induction first generalizing b with
  | nil => simp [Traced, Bindings.serveAll]
  | cons access rest ih =>
    rw [List.cons_append, Traced, Traced, ih, List.flatMap_cons, Bindings.serveAll_append,
      and_assoc]

theorem Traced.found_eq {b : Bindings} {before later : List Access} {access : Access}
    (h : Traced b (before ++ access :: later)) :
    access.found = b.serveAll (before.flatMap Access.requests) :=
  (traced_append.mp h).2.1

theorem Outline.resolve_serveAll {o : Outline} {b c : Bindings} {t : Term}
    (h : (o.resolve registry).run b = .ok (t, c)) :
    c = b.serveAll ((o.accesses registry b).flatMap Access.requests) := by
  rw [← Outline.resolve_requests]
  exact Build.run_serveAll h

theorem Outline.resolveAll_serveAll {outlines : List Outline} {b c : Bindings} {ts : List Term}
    (h : (Outline.resolveAll registry outlines).run b = .ok (ts, c)) :
    c = b.serveAll ((Outline.accessesAll registry outlines b).flatMap Access.requests) := by
  rw [← Outline.resolveAll_requests]
  exact Build.run_serveAll h

mutual

theorem Outline.accesses_traced (o : Outline) (b : Bindings) :
    Traced b (o.accesses registry b) := by
  match o with
  | .fault cause place => trivial
  | .number value => trivial
  | .name place => exact ⟨rfl, trivial⟩
  | .minus operand => exact Outline.accesses_traced operand b
  | .binary op left right =>
    rw [Outline.accesses, traced_append]
    refine ⟨Outline.accesses_traced left b, ?_⟩
    cases hl : (left.resolve registry).run b with
    | error error => trivial
    | ok made =>
      rw [← Outline.resolve_serveAll hl]
      exact Outline.accesses_traced right made.2
  | .call word place arguments =>
    rw [Outline.accesses]
    cases registry.find? word with
    | none => trivial
    | some provider =>
      refine traced_append.mpr ⟨Outline.accessesAll_traced arguments b, ?_⟩
      cases ha : (Outline.resolveAll registry arguments).run b with
      | error error => trivial
      | ok made =>
        rw [← Outline.resolveAll_serveAll ha]
        exact ⟨rfl, trivial⟩

theorem Outline.accessesAll_traced (outlines : List Outline) (b : Bindings) :
    Traced b (Outline.accessesAll registry outlines b) := by
  match outlines with
  | [] => trivial
  | outline :: rest =>
    rw [Outline.accessesAll, traced_append]
    refine ⟨Outline.accesses_traced outline b, ?_⟩
    cases ho : (outline.resolve registry).run b with
    | error error => trivial
    | ok made =>
      rw [← Outline.resolve_serveAll ho]
      exact Outline.accessesAll_traced rest made.2

end

/-- What an access asks for: an operand its name, a call what its provider asks for when it gets
the terms of its arguments, with the look of the check after it. -/
def Access.Performed (registry : Registry) (access : Access) : Prop :=
  match access.site with
  | .argument place => access.requests = [.register (String.ofList place.text)]
  | .call word _ arguments =>
    ∃ provider b operands t c, registry.find? word = some provider ∧
      (Outline.resolveAll registry arguments).run b = .ok (operands, access.found) ∧
      (provider operands).run access.found = .ok (t, c) ∧
      access.requests = (provider operands).requests access.found ++ [.look]

mutual

/-- If an outline is resolved, then every site has its access. -/
theorem Outline.accesses_sites {o : Outline} {b c : Bindings} {t : Term}
    (h : (o.resolve registry).run b = .ok (t, c)) :
    (o.accesses registry b).map Access.site = o.sites ∧
      ∀ access ∈ o.accesses registry b, access.Performed registry := by
  match o with
  | .fault cause place => exact absurd h Outline.resolve_fault_ne_ok
  | .number value => exact ⟨rfl, by simp [Outline.accesses]⟩
  | .name place => exact ⟨rfl, by simp [Outline.accesses, Access.Performed]⟩
  | .minus operand =>
    obtain ⟨x, hx, _⟩ := Outline.resolve_minus_eq_ok.mp h
    rw [Outline.accesses, Outline.sites]
    exact Outline.accesses_sites hx
  | .binary op left right =>
    obtain ⟨x, y, middle, hx, hy, _⟩ := Outline.resolve_binary_eq_ok.mp h
    obtain ⟨hleft, hpleft⟩ := Outline.accesses_sites hx
    obtain ⟨hright, hpright⟩ := Outline.accesses_sites hy
    simp only [Outline.accesses, hx, Outline.sites]
    exact ⟨by rw [List.map_append, hleft, hright], List.forall_mem_append.mpr ⟨hpleft, hpright⟩⟩
  | .call word place arguments =>
    obtain ⟨provider, operands, middle, hf, ha, hp, _⟩ := Outline.resolve_call_eq_ok.mp h
    obtain ⟨hsites, hperformed⟩ := Outline.accessesAll_sites ha
    simp only [Outline.accesses, hf, ha, Outline.sites]
    refine ⟨by rw [List.map_append, hsites]; rfl, List.forall_mem_append.mpr ⟨hperformed, ?_⟩⟩
    intro access hmem
    obtain rfl := List.mem_singleton.mp hmem
    refine ⟨provider, b, operands, t, c, hf, ha, hp, ?_⟩
    simp only [Build.requests_bind, hp]
    rfl

theorem Outline.accessesAll_sites {outlines : List Outline} {b c : Bindings} {ts : List Term}
    (h : (Outline.resolveAll registry outlines).run b = .ok (ts, c)) :
    (Outline.accessesAll registry outlines b).map Access.site = Outline.sitesAll outlines ∧
      ∀ access ∈ Outline.accessesAll registry outlines b, access.Performed registry := by
  match outlines with
  | [] => exact ⟨rfl, by simp [Outline.accessesAll]⟩
  | outline :: rest =>
    obtain ⟨x, xs, middle, hx, hxs, _⟩ := Outline.resolveAll_cons_eq_ok.mp h
    obtain ⟨hfirst, hpfirst⟩ := Outline.accesses_sites hx
    obtain ⟨hrest, hprest⟩ := Outline.accessesAll_sites hxs
    simp only [Outline.accessesAll, hx, Outline.sitesAll]
    exact ⟨by rw [List.map_append, hfirst, hrest], List.forall_mem_append.mpr ⟨hpfirst, hprest⟩⟩

end

end Formulary
