import Grafeo.Transaction.TimeIndex
import Grafeo.Transaction.Savepoints
import Grafeo.Transaction.Horizon
import Grafeo.RowGroup.AdjacencyRuns
import Grafeo.RowGroup.ColumnRefines
import Grafeo.RowGroup.Counted
import Grafeo.RowGroup.CollectAll
import Grafeo.RowGroup.VersionPlain
import Grafeo.RowGroup.Finds
import Grafeo.Storage.CheckpointEnds
import Grafeo.Common.DecimalSum
import Grafeo.Common.DecimalOrder
import Grafeo.Transaction.Overlay
import Grafeo.Rdf.NTriples
import Grafeo.Rdf.Turtle
import Grafeo.Rdf.Values
import Grafeo.Rdf.TermIds
import Grafeo.Codec.BitVector
import Grafeo.Execution.HashKey
import Grafeo.Rdf.Minus
