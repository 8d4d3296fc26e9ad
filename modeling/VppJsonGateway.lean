import VppJsonGateway.Lib.Bytes
import VppJsonGateway.Lib.Utf8
import VppJsonGateway.Lib.Json
import VppJsonGateway.Lib.JsonParse
import VppJsonGateway.Lib.Base64
import VppJsonGateway.Common
import VppJsonGateway.Spool
import VppJsonGateway.Assembler
import VppJsonGateway.Lib.JsonText
import VppJsonGateway.SpoolWrites
import VppJsonGateway.SpoolReads
import VppJsonGateway.SpoolRoom
import VppJsonGateway.RoundTrip
import VppJsonGateway.Lib.Files
import VppJsonGateway.Lib.Prog
import VppJsonGateway.Transfer
import VppJsonGateway.TransferSpec
import VppJsonGateway.TransferMoves
import VppJsonGateway.TransferCalls
import VppJsonGateway.TransferSafety
import VppJsonGateway.Generator
import VppJsonGateway.Lib.Reading
import VppJsonGateway.WireFormat
import VppJsonGateway.ReplyLength
import VppJsonGateway.AssemblerSafety
import VppJsonGateway.SpoolBounds
import VppJsonGateway.TransferQuota
import VppJsonGateway.TransferPrivacy
import VppJsonGateway.DecodeCodes
import VppJsonGateway.ReplyValues
import VppJsonGateway.ReplyErrors
import VppJsonGateway.ReplyUnions
import VppJsonGateway.ReplySelects
import VppJsonGateway.Descriptions
import VppJsonGateway.Discovery
import VppJsonGateway.Gateway
import VppJsonGateway.GatewaySpec
import VppJsonGateway.SpoolFaults
import VppJsonGateway.GatewayInvariant
import VppJsonGateway.GatewaySteps
import VppJsonGateway.ReplySize
import VppJsonGateway.GatewayTurn
import VppJsonGateway.GatewayRuns
import VppJsonGateway.GatewayBudgets
import VppJsonGateway.GatewayLeases
import VppJsonGateway.Lib.JsonGrammar
import VppJsonGateway.NestingGuard
import VppJsonGateway.TransferBegin
import VppJsonGateway.Lib.JsonLocal
import VppJsonGateway.TransferResolve
import VppJsonGateway.InterfaceNames
import VppJsonGateway.VapiBackend
import VppJsonGateway.VapiNames
import VppJsonGateway.VapiCodes
import VppJsonGateway.StreamFiles
import VppJsonGateway.StreamPages
import VppJsonGateway.VapiStreams
import VppJsonGateway.Lib.Registry
import VppJsonGateway.Modules
import VppJsonGateway.ModuleOrder
import VppJsonGateway.Recovery
import VppJsonGateway.AddressTexts
import VppJsonGateway.AddressCodec
import VppJsonGateway.Addresses
import VppJsonGateway.Execution
import VppJsonGateway.SpoolFrames
import VppJsonGateway.Client
import VppJsonGateway.StreamOrder
import VppJsonGateway.DefaultParts
import VppJsonGateway.DefaultValues
import VppJsonGateway.SchemaDefaults
import VppJsonGateway.Admission
