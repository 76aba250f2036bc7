import TypeOutline.Text.Blank
import TypeOutline.Text.Capital
import TypeOutline.Text.Quoted
import TypeOutline.Value
import TypeOutline.Override
import TypeOutline.Schema.Basic
import TypeOutline.Derive.Engine
import TypeOutline.Render.Lines
import TypeOutline.Render.Renderer
import TypeOutline.Schema.Dump
import TypeOutline.Json.Printer
import TypeOutline.Json.Pointer
import TypeOutline.Config
import TypeOutline.Document
import TypeOutline.Greeting
import TypeOutline.Main
import TypeOutline.Proofs.Arena.Growth
import TypeOutline.Proofs.Arena.Descent
import TypeOutline.Proofs.Arena.Renumbering
import TypeOutline.Proofs.Arena.Subtrees
import TypeOutline.Proofs.Arena.Operations
import TypeOutline.Proofs.Derivation.Outline
import TypeOutline.Proofs.Derivation.Subvalues
import TypeOutline.Proofs.Derivation.Depth
import TypeOutline.Proofs.Derivation.Definitions
import TypeOutline.Proofs.Derivation.Registering
import TypeOutline.Proofs.Derivation.Visiting
import TypeOutline.Proofs.Derivation.Paths
import TypeOutline.Proofs.Derivation.Faithful
import TypeOutline.Proofs.Derivation.Termination
import TypeOutline.Proofs.Derivation.References
import TypeOutline.Proofs.Derivation.Nodes
import TypeOutline.Proofs.Derivation.WellFormed
import TypeOutline.Proofs.Derivation.Integrity
import TypeOutline.Proofs.Derivation.Typing
import TypeOutline.Proofs.Derivation.TypedTrees
import TypeOutline.Proofs.Rendering.Dumps
import TypeOutline.Proofs.Rendering.Expands
import TypeOutline.Proofs.Derivation.Expansion
import TypeOutline.Proofs.Rendering.Lines
import TypeOutline.Proofs.Derivation.Placement
import TypeOutline.Proofs.Rendering.DefinitionLines
import TypeOutline.Proofs.Derivation.Likeness
import TypeOutline.Proofs.Derivation.Documents
import TypeOutline.Proofs.Derivation.MapOrder
import TypeOutline.Proofs.Derivation.Blocks
import TypeOutline.Proofs.Rendering.Ways
import TypeOutline.Proofs.Rendering.JsonLines
import TypeOutline.Proofs.Derivation.Sight
import TypeOutline.Proofs.Derivation.Retagging
import TypeOutline.Proofs.Rendering.Retagged
import TypeOutline.Proofs.Derivation.DocumentTrees
import TypeOutline.Proofs.Rendering.Quoting
import TypeOutline.Proofs.Rendering.Segments
import TypeOutline.Proofs.Rendering.Lossless
import TypeOutline.Proofs.Arena.Edits
import TypeOutline.Proofs.Rendering.Renumbered
import TypeOutline.Proofs.Arena.Compaction
import TypeOutline.Proofs.Arena.Copying
import TypeOutline.Proofs.Derivation.Probing
import TypeOutline.Proofs.Derivation.RepeatedKeys
import TypeOutline.Proofs.Derivation.Positions
import TypeOutline.Proofs.Derivation.MapKeys
import TypeOutline.Proofs.Rendering.Renderer
import TypeOutline.Proofs.Rendering.Indents
import TypeOutline.Proofs.Rendering.Nesting
import TypeOutline.Proofs.Derivation.DocumentNodes
import TypeOutline.Proofs.Rendering.DocumentBlocks
import TypeOutline.Proofs.Derivation.Numbering
import TypeOutline.Proofs.Derivation.Relabelling
import TypeOutline.Proofs.Derivation.Gaps
import TypeOutline.Proofs.Derivation.Exchange
import TypeOutline.Proofs.Derivation.Shortening
import TypeOutline.Proofs.Rendering.TreeLines
import TypeOutline.Proofs.Rendering.Shuffled
import TypeOutline.Proofs.Rendering.Modes
import TypeOutline.Proofs.Text.Pieces
import TypeOutline.Proofs.Text.Capital
import TypeOutline.Proofs.Derivation.DocumentNames
import TypeOutline.Proofs.Rendering.LineFeeds
import TypeOutline.Proofs.Tags.Pairs
import TypeOutline.Proofs.Tags.Written
import TypeOutline.Proofs.Tags.Applied
import TypeOutline.Proofs.Inputs.Outcomes
import TypeOutline.Proofs.Inputs.Documents
import TypeOutline.Proofs.Inputs.Origins
import TypeOutline.Proofs.Inputs.Languages
import TypeOutline.Proofs.Inputs.Faults
import TypeOutline.Proofs.Json.Grammar
import TypeOutline.Proofs.Json.Reading
import TypeOutline.Proofs.Json.Numbers
import TypeOutline.Proofs.Json.Strings
import TypeOutline.Proofs.Json.Values
import TypeOutline.Proofs.Json.Following
import TypeOutline.Proofs.Inputs.Leftovers
import TypeOutline.Proofs.Files.Trails
import TypeOutline.Proofs.Files.Writing
import TypeOutline.Proofs.Command.Effects
import TypeOutline.Proofs.Command.Uses
import TypeOutline.Proofs.Command.Output
import TypeOutline.Proofs.Derivation.DateTimes
import TypeOutline.Proofs.Derivation.Marks
import TypeOutline.Proofs.Derivation.Wrapping
