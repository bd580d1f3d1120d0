import Mast.BinaryVector.Concatenation
import Mast.BinaryVector.DecimalLaws
import Mast.BinaryVector.Integers
import Mast.BinaryVector.Invariant
import Mast.BinaryVector.RoundTrip
import Mast.BinaryVector.SliceLaws
import Mast.BinaryVector.SvfVector
import Mast.Builder.JtagTap
import Mast.Checker.Contract
import Mast.DataCycle.Answers
import Mast.Ftdi.ScanLaw
import Mast.Generator.Tree
import Mast.Icl.IntegerLaws
import Mast.Intel.PacketStream
import Mast.LowPin.Tpsp
import Mast.Manager.Awaited
import Mast.Path.CheckedRegister
import Mast.Path.Resolver
import Mast.Readers.CircularModules
import Mast.Readers.NumberLaws
import Mast.Readers.ParameterScopes
import Mast.Readers.SelectionTable
import Mast.Readers.TopModule
import Mast.Retarget.Loop
import Mast.Scan.BlackBoxWidths
import Mast.Scan.Mirror
import Mast.Scan.NHotPaths
import Mast.Scan.ReadChecks
import Mast.Scan.SingleRegister
import Mast.Scan.Streamers
import Mast.Scan.WrongLength
import Mast.Scan.WrongWidth
import Mast.Sit.RoundTrip
import Mast.Ssak.Driver
import Mast.Ssak.Grants
import Mast.Tree.Move
import Mast.Trivium.Requests
import Mast.Manager.Returns
