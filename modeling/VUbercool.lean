import VUbercool.Dns.Pointers
import VUbercool.Dns.Questions
import VUbercool.Dns.Replies
import VUbercool.Dns.Resolution
import VUbercool.Dns.Authority
import VUbercool.Dns.Accounting
import VUbercool.Dns.HeaderBits
import VUbercool.Dns.Search
import VUbercool.Dns.OwnName
import VUbercool.Dns.Grammar
import VUbercool.Dns.LabelRounds
import VUbercool.Dns.NameLimit
import VUbercool.Dns.FormatErrors
import VUbercool.Dns.Mname
import VUbercool.Dns.Glue
import VUbercool.Dns.SearchTotal
import VUbercool.Http.ConnectionMgr
import VUbercool.Http.ConnectionLimit
import VUbercool.Http.Timeout
import VUbercool.Http.RequestCounts
import VUbercool.Http.Serving
import VUbercool.Http.AcceptEncoding
import VUbercool.Http.AnyHeader
import VUbercool.Http.Answers
import VUbercool.Http.SharedSites
import VUbercool.Http.WellFormed
import VUbercool.Http.StaticPageHost
import VUbercool.Http.VhostManager
import VUbercool.Http.DataFile
import VUbercool.Http.ReceiveBuffer
import VUbercool.Statistics
import VUbercool.Dns.Copies
import VUbercool.Dns.CutReply
import VUbercool.Dns.FirstQuestion
import VUbercool.Dns.Endpoints
